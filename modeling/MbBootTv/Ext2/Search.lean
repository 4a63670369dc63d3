import MbBootTv.Ext2.Medium
import MbBootTv.Ext2.Pages

/-!
# Searching a directory

The loop of `ext2_namei` trusts the records of a directory. `SearchInside` is what it should do on
every content: come to an end, and look at no byte outside the block in `blkbuf`. It does exactly
when the directory is `Tame`: every record that the scan comes to lies in its block as far as it is
looked at, and has a length other than 0 unless it is the one that is searched.
-/

namespace MbBootTv

/-! ## What is looked at -/

section Looks

variable (text : Bytes → Bytes) (component len : Nat)

/-- The first `i` bytes of the name at `o` are those of the component, and none of them is NUL. -/
def SamePrefix (blk : Bytes) (o i : Nat) : Prop :=
  ∀ j < i, text blk (component + j) = blk (o + DirEntry.nameOffset + j) ∧
    text blk (component + j) ≠ 0

/-- The bytes of `blkbuf` that the search looks at for the record at `o`. -/
inductive Inspects (blk : Bytes) (o : Nat) : Nat → Prop
  /-- `dp->rec_len` -/
  | recLen (i : Nat) (hi : i < 2) : Inspects blk o (o + 4 + i)
  /-- `dp->name_len` -/
  | nameLen : Inspects blk o (o + 6)
  /-- `strncmp` looks as far as the first difference, or the first NUL. -/
  | name (i : Nat) (hlen : (DirEntry.nameLen blk o).toNat = len) (hi : i < len)
      (hsame : SamePrefix text component blk o i) : Inspects blk o (o + DirEntry.nameOffset + i)

/-- The record at `o` has the name that is searched. -/
def Hit (blk : Bytes) (o : Nat) : Prop :=
  (DirEntry.nameLen blk o).toNat = len ∧
    strncmp (fun i => .ok (text blk (component + i)))
      (fun i => .ok (blk (o + DirEntry.nameOffset + i))) 0 len = .ok 0

end Looks

section Names

variable {text : Bytes → Bytes} {component len cap o : Nat} {blk : Bytes}

/-- A comparison that stays in the buffer tells whether the record has the name. -/
theorem nameMatches_of_inside (hcap : component + len ≤ cap)
    (h : ∀ a, Inspects text component len blk o a → a < ext2MaxBlockSize) :
    ∃ r, nameMatches text cap component len blk o = .ok r := by
  unfold nameMatches
  rw [loadByte, if_pos (h _ .nameLen)]
  simp only [ok_bind]
  by_cases hlen : (blk (o + 6)).toNat = len
  · rw [if_pos hlen]
    have hloads : strncmp (fun i => loadByte (text blk) cap (component + i)) (dirNameByte blk o) 0
        len = strncmp (fun i => .ok (text blk (component + i)))
          (fun i => .ok (blk (o + DirEntry.nameOffset + i))) 0 len := by
      refine strncmp_congr fun j hj hsame => ?_
      simp only [Nat.zero_add] at hsame ⊢
      refine ⟨if_pos (by omega), if_pos (h _ (.name j hlen hj hsame))⟩
    rw [hloads]
    obtain ⟨r, hr⟩ := strncmp_total (fun i => text blk (component + i))
      (fun i => blk (o + DirEntry.nameOffset + i)) 0 len
    rw [hr]
    exact ⟨_, rfl⟩
  · rw [if_neg hlen]
    exact ⟨false, rfl⟩

theorem nameMatches_iff {r : Bool} (h : nameMatches text cap component len blk o = .ok r) :
    r = true ↔ Hit text component len blk o := by
  have hload {b : Bytes} {n i : Nat} {c : UInt8} (h : loadByte b n i = .ok c) : c = b i := by
    unfold loadByte at h
    split_ifs at h
    exact (Except.ok.inj h).symm
  unfold nameMatches at h
  obtain ⟨c, hc, h⟩ := bind_eq_ok.mp h
  rw [hload hc] at h
  by_cases hlen : (blk (o + 6)).toNat = len
  · rw [if_pos hlen] at h
    obtain ⟨v, hv, h⟩ := bind_eq_ok.mp h
    have htotal := strncmp_of_ok (x := fun i => text blk (component + i))
      (y := fun i => blk (o + DirEntry.nameOffset + i)) (fun _ _ => hload) (fun _ _ => hload) hv
    unfold Hit
    rw [htotal, ← Except.ok.inj h]
    simp [DirEntry.nameLen, hlen]
  · rw [if_neg hlen] at h
    rw [← Except.ok.inj h]
    exact iff_of_false Bool.false_ne_true fun h => hlen h.1

end Names

/-! ## Runs of the search -/

/-- The records that `nameiSearch` looks at, with the `blkbuf` they stand in. -/
def nameiRecords (env : Env) (m : Mount) (dirInode : Inode) (text : Bytes → Bytes)
    (cap component len : Nat) : Nat → Bool → Bufs → List (Nat × Bytes)
  | 0, _, _ => []
  | fuel + 1, rewind, b =>
    match ext2Readdiri env m b dirInode rewind with
    | .ok (some dp, b) =>
      (dp, b.blkbuf) ::
        match nameMatches text cap component len b.blkbuf dp with
        | .ok false => nameiRecords env m dirInode text cap component len fuel false b
        | _ => []
    | _ => []

section Run

variable (env : Env) (m : Mount) (ip : Inode) (text : Bytes → Bytes) (cap component len : Nat)

/-- With this much fuel the search comes to an end, and all the bytes of `blkbuf` that it looks at
are in the block. -/
structure EndsInside (fuel : Nat) (rewind : Bool) (b : Bufs) : Prop where
  ends : ∃ r, nameiSearch env m ip text cap component len fuel rewind b = .ok r
  inside : ∀ q ∈ nameiRecords env m ip text cap component len fuel rewind b,
    ∀ a, Inspects text component len q.2 q.1 a → a < m.bs

/-- The search from the buffers `b` on ends after finitely many records, inside the block. -/
def SearchInside (b : Bufs) : Prop := ∃ fuel, EndsInside env m ip text cap component len fuel true b

end Run

section EndsInside

variable {env : Env} {m : Mount} {ip : Inode} {text : Bytes → Bytes} {cap component len fuel : Nat}
  {rewind : Bool} {b b' : Bufs} {o : Nat}

theorem EndsInside.of_none (h : ext2Readdiri env m b ip rewind = .ok (none, b')) :
    EndsInside env m ip text cap component len (fuel + 1) rewind b where
  ends := ⟨(-1, b'), by rw [nameiSearch, h]; rfl⟩
  inside q hq := by
    rw [nameiRecords, h] at hq
    exact absurd hq List.not_mem_nil

/-- A search depends on nothing but what its first call of `ext2_readdiri` returns. -/
theorem nameiSearch_congr {rewind' : Bool} {c : Bufs}
    (h : ext2Readdiri env m b ip rewind = ext2Readdiri env m c ip rewind') :
    nameiSearch env m ip text cap component len fuel rewind b =
      nameiSearch env m ip text cap component len fuel rewind' c := by
  cases fuel with
  | zero => rfl
  | succ fuel => rw [nameiSearch, nameiSearch, h]

theorem endsInside_congr {rewind' : Bool} {c : Bufs}
    (h : ext2Readdiri env m b ip rewind = ext2Readdiri env m c ip rewind') :
    EndsInside env m ip text cap component len fuel rewind b ↔
      EndsInside env m ip text cap component len fuel rewind' c := by
  cases fuel with
  | zero => exact iff_of_false (fun h => nomatch h.ends) fun h => nomatch h.ends
  | succ fuel =>
    have hends : nameiSearch env m ip text cap component len (fuel + 1) rewind b =
        nameiSearch env m ip text cap component len (fuel + 1) rewind' c := nameiSearch_congr h
    have hrecords : nameiRecords env m ip text cap component len (fuel + 1) rewind b =
        nameiRecords env m ip text cap component len (fuel + 1) rewind' c := by
      rw [nameiRecords, nameiRecords, h]
    exact ⟨fun ⟨hr, hin⟩ => ⟨hends ▸ hr, hrecords ▸ hin⟩,
      fun ⟨hr, hin⟩ => ⟨hends ▸ hr, hrecords ▸ hin⟩⟩

theorem not_endsInside_zero : ¬ EndsInside env m ip text cap component len 0 rewind b :=
  fun ⟨⟨_, h⟩, _⟩ => nomatch h

theorem not_endsInside_of_error {e : Fault} (h : ext2Readdiri env m b ip rewind = .error e) :
    ¬ EndsInside env m ip text cap component len fuel rewind b := by
  cases fuel with
  | zero => exact not_endsInside_zero
  | succ fuel =>
    rintro ⟨⟨r, hr⟩, -⟩
    rw [nameiSearch, h] at hr
    cases hr

/-- **One record of the search**: it is looked at, and either it is the one, or the search goes on
behind it. -/
theorem endsInside_iff (hcap : component + len ≤ cap) (hbs : m.bs ≤ ext2MaxBlockSize)
    (h : ext2Readdiri env m b ip rewind = .ok (some o, b')) :
    EndsInside env m ip text cap component len (fuel + 1) rewind b ↔
      (∀ a, Inspects text component len b'.blkbuf o a → a < m.bs) ∧
        (Hit text component len b'.blkbuf o ∨
          EndsInside env m ip text cap component len fuel false b') := by
  constructor
  · rintro ⟨⟨r, hr⟩, hin⟩
    rw [nameiSearch, h, ok_bind] at hr
    rw [nameiRecords, h] at hin
    obtain ⟨found, hfound, hr⟩ := bind_eq_ok.mp hr
    dsimp only at hfound hin
    rw [hfound] at hin
    refine ⟨hin _ List.mem_cons_self, ?_⟩
    cases found with
    | true => exact .inl ((nameMatches_iff hfound).mp rfl)
    | false => exact .inr ⟨⟨r, hr⟩, fun q hq => hin q (List.mem_cons_of_mem _ hq)⟩
  · rintro ⟨hin, hrest⟩
    obtain ⟨found, hfound⟩ := nameMatches_of_inside hcap fun a ha => (hin a ha).trans_le hbs
    have hiff := nameMatches_iff hfound
    cases found with
    | true =>
      refine ⟨⟨(DirEntry.inode b'.blkbuf o, b'), ?_⟩, fun q hq => ?_⟩
      · rw [nameiSearch, h]
        simp only [ok_bind, hfound]
        rfl
      · rw [nameiRecords, h] at hq
        simp only [hfound] at hq
        obtain rfl := List.mem_singleton.mp hq
        exact hin
    | false =>
      obtain ⟨⟨r, hr⟩, hin'⟩ := hrest.resolve_left fun hit => Bool.false_ne_true (hiff.mpr hit)
      refine ⟨⟨r, ?_⟩, fun q hq => ?_⟩
      · rw [nameiSearch, h]
        simp only [ok_bind, hfound]
        exact hr
      · rw [nameiRecords, h] at hq
        simp only [hfound] at hq
        rcases List.mem_cons.mp hq with rfl | hq
        · exact hin
        · exact hin' q hq

end EndsInside

/-! ## The records of a directory -/

section Tame

variable (env : Env) (m : Mount) (ip : Inode) (b : Bufs) (text : Bytes → Bytes)
  (component len : Nat)

/-- By the lengths of its records, a scan comes to byte `o` of block `k`, which stands in
`p.blkbuf`. -/
inductive Comes : Nat → Nat → Bufs → Prop
  | start {p : Bufs} (hp : dirPages env m ip b 0 = .ok (true, p)) : Comes 0 0 p
  | record {k o : Nat} {p : Bufs} (h : Comes k o p) (hin : o < m.bs)
      (hmiss : ¬ Hit text component len p.blkbuf o) :
      Comes k (o + (DirEntry.recLen p.blkbuf o).toNat) p
  | block {k o : Nat} {p p' : Bufs} (h : Comes k o p) (hend : m.bs ≤ o)
      (hmore : (k + 1) * m.bs < ip.iSize.toNat) (hint : (k + 1) * m.bs < 2 ^ 31)
      (hp : dirPages env m ip b (k + 1) = .ok (true, p')) : Comes (k + 1) 0 p'

/-- A directory in which the search for a name goes well. -/
structure Tame : Prop where
  /-- A record lies in its block, as far as it is looked at. -/
  inside : ∀ {k o p}, Comes env m ip b text component len k o p → o < m.bs →
    ∀ a, Inspects text component len p.blkbuf o a → a < m.bs
  /-- A record is the one that is searched, or its length is not 0. -/
  progress : ∀ {k o p}, Comes env m ip b text component len k o p → o < m.bs →
    ¬ Hit text component len p.blkbuf o → DirEntry.recLen p.blkbuf o ≠ 0
  /-- Offsets into the directory do not become negative. -/
  int : ∀ {k o p}, Comes env m ip b text component len k o p → m.bs ≤ o →
    (k + 1) * m.bs < ip.iSize.toNat → (k + 1) * m.bs < 2 ^ 31

end Tame

section Scan

variable {env : Env} {m : Mount} {ip : Inode} {b p p' : Bufs} {text : Bytes → Bytes}
  {cap component len fuel k o : Nat}

theorem Comes.page (h : Comes env m ip b text component len k o p) :
    dirPages env m ip b k = .ok (true, p) := by
  induction h with
  | start hp => exact hp
  | record _ _ _ ih => exact ih
  | block _ _ _ _ hp _ => exact hp

theorem Comes.int (h : Comes env m ip b text component len k o p) : k * m.bs < 2 ^ 31 := by
  induction h with
  | start hp => rw [Nat.zero_mul]; decide
  | record _ _ _ ih => exact ih
  | block _ _ _ hint _ _ => exact hint

theorem Comes.offset (hm : m.Sound) (h : Comes env m ip b text component len k o p) :
    o < 2 ^ 31 := by
  cases h with
  | start hp => decide
  | @record _ o _ _ hin _ =>
    have hbs := hm.cases
    have hlen := (DirEntry.recLen p.blkbuf o).toNat_lt
    omega
  | block _ _ _ _ _ => decide

/-- Whatever is on the disk, a block in the directory arrives or does not. -/
theorem readDirBlock_total (env : Env) (hm : m.Sound) (b : Bufs) (ip : Inode) {k : UInt32}
    (hk : k.toNat * m.bs ≤ ip.iSize.toNat) : ∃ ok p, readDirBlock env m b ip k = .ok (ok, p) := by
  have hreads : DirReads env m (fun _ _ => True) ip _ :=
    dirReads_canRead hm (fun _ _ _ => trivial) ip
  obtain ⟨o, b', h, -⟩ := hreads b k ⟨trivial, trivial⟩ hk
  exact ⟨o.isSome, b', h⟩

/-- A record in its block. -/
theorem endsInside_record (hm : m.Sound) (hcap : component + len ≤ cap) (ho : o < m.bs) :
    EndsInside env m ip text cap component len (fuel + 1) false (p.scanAt m k o) ↔
      (∀ a, Inspects text component len p.blkbuf o a → a < m.bs) ∧
        (Hit text component len p.blkbuf o ∨
          EndsInside env m ip text cap component len fuel false
            (p.scanAt m k (o + (DirEntry.recLen p.blkbuf o).toNat))) := by
  have hbs : m.bs ≤ ext2MaxBlockSize := hm.fits
  have hmax : ext2MaxBlockSize = 4096 := rfl
  have hnext : ext2Readdiri env m (p.scanAt m k o) ip false =
      if o + 6 ≤ ext2MaxBlockSize then
        .ok (some o, p.scanAt m k (o + (DirEntry.recLen p.blkbuf o).toNat))
      else .error .outOfBounds := by
    refine (readdiriNext_inside hm ho).trans (nextDirEntry_scanAt (by omega))
  by_cases hin : o + 6 ≤ ext2MaxBlockSize
  · rw [if_pos hin] at hnext
    exact endsInside_iff hcap hbs hnext
  · rw [if_neg hin] at hnext
    refine iff_of_false (not_endsInside_of_error hnext) fun h => ?_
    have := h.1 _ .nameLen
    omega

/-- The first record of the next block. -/
theorem endsInside_block (hm : m.Sound) (h : Comes env m ip b text component len k o p)
    (hge : m.bs ≤ o) (hmore : (k + 1) * m.bs < ip.iSize.toNat) (hint : (k + 1) * m.bs < 2 ^ 31)
    (hp : dirPages env m ip b (k + 1) = .ok (true, p')) :
    EndsInside env m ip text cap component len fuel false (p.scanAt m k o) ↔
      EndsInside env m ip text cap component len fuel false (p'.scanAt m (k + 1) 0) := by
  refine endsInside_congr ?_
  have hbs := hm.cases
  rcases readdiriNext_next hm h.page h.int hge (h.offset hm) with
    ⟨hend, -⟩ | ⟨-, hneg, -⟩ | ⟨-, -, heq⟩
  · omega
  · omega
  · refine heq.trans ?_
    rw [hp]
    exact (readdiriNext_inside hm (show 0 < m.bs by omega)).symm

theorem endsInside_start (hp : dirPages env m ip b 0 = .ok (true, p)) :
    EndsInside env m ip text cap component len fuel true b ↔
      EndsInside env m ip text cap component len fuel false (p.scanAt m 0 0) := by
  refine endsInside_congr ?_
  rw [ext2Readdiri_start, hp]
  rfl

/-- **A tame directory is searched to its end**: with each record the scan gets ahead in its block,
and with each block in the directory. -/
theorem Tame.endsInside (ht : Tame env m ip b text component len) (hm : m.Sound)
    (hcap : component + len ≤ cap) (h : Comes env m ip b text component len k o p) :
    ∃ fuel, EndsInside env m ip text cap component len fuel false (p.scanAt m k o) := by
  have hbs := hm.cases
  -- What is left of the directory, and then what is left of the block.
  induction hd : ip.iSize.toNat - k * m.bs using Nat.strong_induction_on generalizing k o p with
  | _ d ihd =>
    subst hd
    induction he : m.bs - o using Nat.strong_induction_on generalizing o with
    | _ e ihe =>
      subst he
      by_cases ho : o < m.bs
      · by_cases hit : Hit text component len p.blkbuf o
        · exact ⟨1, (endsInside_record hm hcap ho).mpr ⟨ht.inside h ho, .inl hit⟩⟩
        · have hlen : (DirEntry.recLen p.blkbuf o).toNat ≠ 0 := fun h0 =>
            ht.progress h ho hit (UInt16.toNat_inj.mp h0)
          obtain ⟨fuel, hfuel⟩ := ihe _ (by omega) (h.record ho hit) rfl
          exact ⟨fuel + 1, (endsInside_record hm hcap ho).mpr ⟨ht.inside h ho, .inr hfuel⟩⟩
      · rw [not_lt] at ho
        rcases readdiriNext_next hm h.page h.int ho (h.offset hm) with
          ⟨-, b', heq⟩ | ⟨hmore, hneg, -⟩ | ⟨hmore, hint, heq⟩
        · exact ⟨1, .of_none heq⟩
        · exact absurd (ht.int h ho hmore) (not_lt.mpr hneg)
        · have hpage : dirPages env m ip b (k + 1) =
              readDirBlock env m p ip (UInt32.ofNat (k + 1)) := by
            rw [dirPages, h.page]
            rfl
          have hk : (UInt32.ofNat (k + 1)).toNat = k + 1 := by
            refine toNat_ofNat_of_lt ((Nat.le_mul_of_pos_right (k + 1) (?_ : 0 < m.bs)).trans_lt
              (hint.trans (by decide)))
            omega
          obtain ⟨ok, p', hread⟩ := readDirBlock_total env hm p ip
            (show (UInt32.ofNat (k + 1)).toNat * m.bs ≤ _ by rw [hk]; exact hmore.le)
          rw [hread] at hpage
          cases ok with
          | false =>
            rw [hpage] at heq
            exact ⟨1, .of_none heq⟩
          | true =>
            obtain ⟨fuel, hfuel⟩ := ihd _ (by rw [Nat.succ_mul] at hmore ⊢; omega)
              (h.block ho hmore hint hpage) rfl
            exact ⟨fuel, (endsInside_block hm h ho hmore hint hpage).mpr hfuel⟩

/-- A search that ends inside its blocks does so from every record that it comes to. -/
theorem SearchInside.comes (hs : SearchInside env m ip text cap component len b) (hm : m.Sound)
    (hcap : component + len ≤ cap) (h : Comes env m ip b text component len k o p) :
    ∃ fuel, EndsInside env m ip text cap component len fuel false (p.scanAt m k o) := by
  induction h with
  | start hp =>
    obtain ⟨fuel, hfuel⟩ := hs
    exact ⟨fuel, (endsInside_start hp).mp hfuel⟩
  | record h hin hmiss ih =>
    obtain ⟨fuel, hfuel⟩ := ih
    cases fuel with
    | zero => exact absurd hfuel not_endsInside_zero
    | succ fuel =>
      exact ⟨fuel, ((endsInside_record hm hcap hin).mp hfuel).2.resolve_left hmiss⟩
  | block h hend hmore hint hp ih =>
    obtain ⟨fuel, hfuel⟩ := ih
    exact ⟨fuel, (endsInside_block hm h hend hmore hint hp).mp hfuel⟩

/-- A record without a length is looked at again and again. -/
theorem not_endsInside_of_recLen (hm : m.Sound) (hcap : component + len ≤ cap) (ho : o < m.bs)
    (hmiss : ¬ Hit text component len p.blkbuf o) (hlen : DirEntry.recLen p.blkbuf o = 0) :
    ¬ EndsInside env m ip text cap component len fuel false (p.scanAt m k o) := by
  induction fuel with
  | zero => exact not_endsInside_zero
  | succ fuel ih =>
    rw [endsInside_record hm hcap ho, hlen]
    exact fun h => ih (h.2.resolve_left hmiss)

/-- **Only a tame directory is searched without going outside its blocks.** -/
theorem SearchInside.tame (hs : SearchInside env m ip text cap component len b) (hm : m.Sound)
    (hcap : component + len ≤ cap) : Tame env m ip b text component len where
  inside h ho := by
    obtain ⟨fuel, hfuel⟩ := hs.comes hm hcap h
    cases fuel with
    | zero => exact absurd hfuel not_endsInside_zero
    | succ fuel => exact ((endsInside_record hm hcap ho).mp hfuel).1
  progress h ho hmiss hlen := by
    obtain ⟨fuel, hfuel⟩ := hs.comes hm hcap h
    exact not_endsInside_of_recLen hm hcap ho hmiss hlen hfuel
  int h hge hmore := by
    obtain ⟨fuel, hfuel⟩ := hs.comes hm hcap h
    rcases readdiriNext_next hm h.page h.int hge (h.offset hm) with
      ⟨hend, -⟩ | ⟨-, -, heq⟩ | ⟨-, hint, -⟩
    · omega
    · exact absurd hfuel (not_endsInside_of_error heq)
    · exact hint

theorem searchInside_of_unreadable (hp : readDirBlock env m b ip 0 = .ok (false, p)) :
    SearchInside env m ip text cap component len b := by
  have hnone : ext2Readdiri env m b ip true = .ok (none, p.seek 0 0) := by
    rw [ext2Readdiri_start, dirPages, hp]
    rfl
  exact ⟨1, .of_none hnone⟩

theorem searchInside_iff_tame (hm : m.Sound) (hcap : component + len ≤ cap) :
    SearchInside env m ip text cap component len b ↔ Tame env m ip b text component len := by
  refine ⟨fun h => h.tame hm hcap, fun ht => ?_⟩
  obtain ⟨ok, p, hp⟩ := readDirBlock_total env hm b ip
    (show (0 : UInt32).toNat * m.bs ≤ _ by simp)
  cases ok with
  | false => exact searchInside_of_unreadable hp
  | true =>
    obtain ⟨fuel, hfuel⟩ := ht.endsInside hm hcap (.start hp)
    exact ⟨fuel, (endsInside_start hp).mpr hfuel⟩

end Scan

/-! ## Every block size -/

/-- The shift that yields the block size yields at most 2^31. -/
theorem SuperBlock.ext2BlockSize_le (sb : SuperBlock) : sb.ext2BlockSize.toNat ≤ 2 ^ 31 := by
  have hshift : sb.ext2BlockSize.toNat = 1024 <<< (sb.sLogBlockSize.toNat % 32) % 2 ^ 32 :=
    UInt32.toNat_shiftLeft _ _
  rw [hshift]
  have hlt : sb.sLogBlockSize.toNat % 32 < 32 := Nat.mod_lt _ (by decide)
  generalize sb.sLogBlockSize.toNat % 32 = k at hlt ⊢
  interval_cases k <;> decide

/-- A block that is larger than the buffer is not read into it without a fault. -/
theorem readDirBlock_large {env : Env} {s : St} (hs : Mounted s) (b : Bufs) (ip : Inode)
    (hbs : ext2MaxBlockSize < s.mount.bs) :
    (∃ b', readDirBlock env s.mount b ip 0 = .ok (false, b')) ∨
      readDirBlock env s.mount b ip 0 = .error .overrun := by
  have hloop : breadiLoop env s.mount ip ext2MaxBlockSize 1 ⟨0, 1, b.blkbuf, 0, 0, b⟩ =
      .error .overrun ∨ ∃ b', breadiLoop env s.mount ip ext2MaxBlockSize 1
        ⟨0, 1, b.blkbuf, 0, 0, b⟩ = .ok (-1, b.blkbuf, b') := by
    have hmap : ext2Blkno env s.mount b ip 0 = .ok (ip.iBlock 0, b) := by
      unfold ext2Blkno
      rw [hs.directlim]
      rfl
    have hover : ext2MaxBlockSize < 0 + (0 + s.mount.blocksize).toNat := by
      rw [UInt32.zero_add, Nat.zero_add]
      exact hbs
    unfold breadiLoop
    rw [hmap]
    simp only [ok_bind, contigLoop]
    by_cases h0 : ip.iBlock 0 = 0
    · rw [if_pos h0, if_pos hover]
      exact .inl rfl
    · rw [if_neg h0]
      rcases readBytes env b (ip.iBlock 0 * s.mount.blocksize) (0 + s.mount.blocksize) with
        ⟨_ | data, b'⟩
      · exact .inr ⟨b', rfl⟩
      · exact .inl (if_pos hover)
  -- The clamp to the size of the file leaves one block.
  have hread : ext2Breadi env s.mount b ip 0 1 b.blkbuf ext2MaxBlockSize =
      breadiLoop env s.mount ip ext2MaxBlockSize 1 ⟨0, 1, b.blkbuf, 0, 0, b⟩ := by
    unfold ext2Breadi
    by_cases hclamp : (0 + 1) * s.mount.blocksize > ip.iSize
    · have hone : (ip.iSize + s.mount.blocksize) / s.mount.blocksize - 0 = 1 := by
        have hle : s.mount.blocksize.toNat ≤ 2 ^ 31 := hs.blocksize ▸ SuperBlock.ext2BlockSize_le _
        rw [UInt32.zero_add, UInt32.one_mul, gt_iff_lt, UInt32.lt_iff_toNat_lt] at hclamp
        rw [UInt32.sub_zero, ← UInt32.toNat_inj, UInt32.toNat_div, UInt32.toNat_add,
          Nat.mod_eq_of_lt (by omega)]
        exact Nat.div_eq_of_lt_le (by rw [UInt32.toNat_one]; omega)
          (by rw [UInt32.toNat_one]; omega)
      rw [if_pos hclamp, if_neg hs.blocksize_ne]
      simp only [hone]
      rfl
    · rw [if_neg hclamp]
      rfl
  unfold readDirBlock
  rw [hread]
  rcases hloop with heq | ⟨b', heq⟩
  · rw [heq]
    exact .inr rfl
  · rw [heq]
    exact .inl ⟨_, rfl⟩

/-- **When the search for a name ends without looking outside the block**: exactly when block 0 of
the directory cannot be read, or when blocks fit the buffer and the directory is tame. -/
theorem searchInside_iff {env : Env} {s : St} (hs : Mounted s) {b : Bufs} {ip : Inode}
    {text : Bytes → Bytes} {cap component len : Nat} (hcap : component + len ≤ cap) :
    SearchInside env s.mount ip text cap component len b ↔
      (∃ b', readDirBlock env s.mount b ip 0 = .ok (false, b')) ∨
        s.mount.bs ≤ ext2MaxBlockSize ∧ Tame env s.mount ip b text component len := by
  have hfirst (h : ∃ b', readDirBlock env s.mount b ip 0 = .ok (false, b')) :
      SearchInside env s.mount ip text cap component len b := by
    obtain ⟨b', h⟩ := h
    exact searchInside_of_unreadable h
  by_cases hbs : s.mount.bs ≤ ext2MaxBlockSize
  · rw [searchInside_iff_tame (hs.sound hbs) hcap]
    refine ⟨fun h => .inr ⟨hbs, h⟩, ?_⟩
    rintro (h | h)
    · exact (searchInside_iff_tame (hs.sound hbs) hcap).mp (hfirst h)
    · exact h.2
  · constructor
    · rintro ⟨fuel, hfuel⟩
      refine .inl ((readDirBlock_large hs b ip (not_le.mp hbs)).resolve_right fun h => ?_)
      refine not_endsInside_of_error (e := .overrun) ?_ hfuel
      rw [ext2Readdiri_start, dirPages, h]
      rfl
    · rintro (h | h)
      · exact hfirst h
      · exact absurd h.1 hbs

/-- A directory of one block that is a hole. -/
def holeDir : Inode := smallInode 0x41ED 1024 0 0

theorem holeDir_check :
    holds (do
      let (r, w) ← ext2fsFsOpen (wholeEnv smallPart letters) none
      match w with
      | none => .error .fuel
      | some s => do
        let (ok, p) ← readDirBlock (wholeEnv smallPart letters) s.mount s.bufs holeDir 0
        return (r, s, ok, p)) (fun (r, s, ok, p) => r = 0 && s.mount.bs = 1024 && ok &&
          DirEntry.nameLen p.blkbuf 0 = 0 && DirEntry.recLen p.blkbuf 0 = 0) = true := by
    decide +kernel

/-- Block 0 of it is read, on a small file system, as zeros. -/
theorem holeDir_page :
    ∃ s₀ p, ext2fsFsOpen (wholeEnv smallPart letters) none = .ok (0, some s₀) ∧
      s₀.mount.bs = 1024 ∧
      dirPages (wholeEnv smallPart letters) s₀.mount holeDir s₀.bufs 0 = .ok (true, p) ∧
      DirEntry.nameLen p.blkbuf 0 = 0 ∧ DirEntry.recLen p.blkbuf 0 = 0 := by
  obtain ⟨⟨r, s, ok, p⟩, hrun, hp⟩ := holds_iff.mp holeDir_check
  obtain ⟨⟨r', w⟩, hmount, hrun⟩ := bind_eq_ok.mp hrun
  cases w with
  | none => cases hrun
  | some s' =>
    obtain ⟨⟨ok', p'⟩, hread, hrun⟩ := bind_eq_ok.mp hrun
    cases hrun
    simp only [Bool.and_eq_true, decide_eq_true_iff] at hp
    obtain ⟨⟨⟨⟨rfl, hbs⟩, rfl⟩, hname⟩, hrec⟩ := hp
    exact ⟨s, p, hmount, hbs, hread, hname, hrec⟩

theorem searchInside_iff_hole :
    ∃ s₀, ext2fsFsOpen (wholeEnv smallPart letters) none = .ok (0, some s₀) ∧
      (SearchInside (wholeEnv smallPart letters) s₀.mount holeDir (fun _ => pathF) 2 0 1 s₀.bufs ↔
        (∃ b', readDirBlock (wholeEnv smallPart letters) s₀.mount s₀.bufs holeDir 0 =
            .ok (false, b')) ∨
          s₀.mount.bs ≤ ext2MaxBlockSize ∧
            Tame (wholeEnv smallPart letters) s₀.mount holeDir s₀.bufs (fun _ => pathF) 0 1) := by
  obtain ⟨s₀, p, hmount, -⟩ := holeDir_page
  exact ⟨s₀, hmount, searchInside_iff (ext2fsFsOpen_spec hmount) (by decide)⟩

/-- The search for the name `f` in a hole does not come to an end. -/
theorem not_searchInside_hole :
    ∃ s₀, ext2fsFsOpen (wholeEnv smallPart letters) none = .ok (0, some s₀) ∧
      ¬ SearchInside (wholeEnv smallPart letters) s₀.mount holeDir (fun _ => pathF) 2 0 1
        s₀.bufs := by
  obtain ⟨s₀, p, hmount, hbs, hp, hname, hrec⟩ := holeDir_page
  have hm : s₀.mount.Sound := (ext2fsFsOpen_spec hmount).sound (by
    show s₀.mount.bs ≤ _
    rw [hbs]
    decide)
  refine ⟨s₀, hmount, fun h => ?_⟩
  refine (h.tame hm (by decide)).progress (.start hp) (by rw [hbs]; decide) (fun hit => ?_) hrec
  have := hit.1
  rw [hname] at this
  cases this

end MbBootTv
