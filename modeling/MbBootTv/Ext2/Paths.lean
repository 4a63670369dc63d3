import MbBootTv.Ext2.Namei

/-!
# Paths in memory

A path is a list of names. In memory they stand one after another, a slash behind each but the
last and a NUL behind that. `strtok_simple` overwrites the slash behind the name it returns, so
what a walk has in hand is a name that is cut off, and the path that is left (`Cut`).

The array is cut for good: no slash is left before its first NUL, and `strrchr` finds none
(`strrchr_of_cutOff`).
-/

namespace MbBootTv

/-- A name in a path. -/
abbrev Name := List UInt8

/-- The name `c` stands at `p`: some bytes, neither NULs nor slashes, and one byte behind them. -/
structure NameAt (b : Bytes) (cap p : Nat) (c : Name) : Prop where
  ne : c ≠ []
  clean : ∀ x ∈ c, x ≠ 0 ∧ x ≠ 47
  text : b.slice p c.length = c
  inside : p + c.length < cap

/-- The path `cs` stands at `p`. -/
inductive PathAt (b : Bytes) (cap : Nat) : Nat → List Name → Prop
  | last {p : Nat} {c : Name} (name : NameAt b cap p c) (hend : b (p + c.length) = 0) :
      PathAt b cap p [c]
  | cons {p : Nat} {c : Name} {cs : List Name} (name : NameAt b cap p c)
      (hsep : b (p + c.length) = 47) (rest : PathAt b cap (p + c.length + 1) cs) :
      PathAt b cap p (c :: cs)

/-- The string at `p` is the path `cs`, behind a slash when it is absolute. -/
def PathText (b : Bytes) (cap p : Nat) (absolute : Bool) (cs : List Name) : Prop :=
  if absolute then p < cap ∧ b p = 47 ∧ PathAt b cap (p + 1) cs else PathAt b cap p cs

/-- What a walk has in hand: the name it looks for, cut off, and the path behind it. -/
inductive Cut (b : Bytes) (cap : Nat) : Option Nat → Option Nat → List Name → Prop
  | done : Cut b cap none none []
  | last {p : Nat} {c : Name} (name : NameAt b cap p c) (hend : b (p + c.length) = 0) :
      Cut b cap (some p) none [c]
  | more {p q : Nat} {c : Name} {cs : List Name} (name : NameAt b cap p c)
      (hend : b (p + c.length) = 0) (rest : PathAt b cap q cs) :
      Cut b cap (some p) (some q) (c :: cs)

/-- No slash before the first NUL, the first byte apart. -/
def CutOff (b : Bytes) (cap : Nat) : Prop :=
  ∃ e < cap, b e = 0 ∧ ∀ j, 0 < j → j < e → b j ≠ 47

section Names

variable {b b' : Bytes} {cap cap' p : Nat} {c : Name}

theorem NameAt.byte (h : NameAt b cap p c) {j : Nat} (hj : j < c.length) :
    b (p + j) ≠ 0 ∧ b (p + j) ≠ 47 := by
  refine h.clean _ ?_
  rw [← h.text]
  exact List.mem_map_of_mem (List.mem_range.mpr hj)

theorem NameAt.ne_zero (h : NameAt b cap p c) : ∀ x ∈ b.slice p c.length, x ≠ 0 := by
  rw [h.text]
  exact fun x hx => (h.clean x hx).1

/-- A name stays where it is when the bytes of it do. -/
theorem NameAt.congr (h : NameAt b cap p c) (hcap : cap ≤ cap')
    (hb : ∀ j < c.length, b' (p + j) = b (p + j)) : NameAt b' cap' p c where
  ne := h.ne
  clean := h.clean
  text := (Bytes.slice_congr hb).trans h.text
  inside := h.inside.trans_le hcap

theorem PathAt.congr {cs : List Name} (h : PathAt b cap p cs) (hcap : cap ≤ cap')
    (hb : ∀ j, p ≤ j → j < cap → b' j = b j) : PathAt b' cap' p cs := by
  induction h with
  | @last p c name hend =>
    have hin := name.inside
    refine .last (name.congr hcap fun j hj => hb _ (Nat.le_add_right p j) (by omega)) ?_
    rw [hb _ (Nat.le_add_right p _) hin, hend]
  | @cons p c cs name hsep rest ih =>
    have hin := name.inside
    refine .cons (name.congr hcap fun j hj => hb _ (Nat.le_add_right p j) (by omega)) ?_
      (ih fun j hj hlt => hb j (by omega) hlt)
    rw [hb _ (Nat.le_add_right p _) hin, hsep]

theorem PathText.mono {absolute : Bool} {cs : List Name} (h : PathText b cap p absolute cs)
    (hcap : cap ≤ cap') : PathText b cap' p absolute cs := by
  unfold PathText at h ⊢
  cases absolute with
  | true =>
    obtain ⟨hp, hslash, hpath⟩ := h
    exact ⟨hp.trans_le hcap, hslash, hpath.congr hcap fun _ _ _ => rfl⟩
  | false => exact PathAt.congr h hcap fun _ _ _ => rfl

/-- The first byte of a path is no slash. -/
theorem PathAt.head {cs : List Name} (h : PathAt b cap p cs) : p < cap ∧ b p ≠ 47 := by
  have hname {c : Name} (name : NameAt b cap p c) : p < cap ∧ b p ≠ 47 :=
    ⟨(Nat.le_add_right p _).trans_lt name.inside,
      (name.byte (List.length_pos_iff.mpr name.ne)).2⟩
  cases h with
  | last name _ => exact hname name
  | cons name _ _ => exact hname name

theorem PathAt.ne_nil {cs : List Name} (h : PathAt b cap p cs) : cs ≠ [] := by
  cases h with
  | last _ _ => exact List.cons_ne_nil _ _
  | cons _ _ _ => exact List.cons_ne_nil _ _

theorem PathText.ne_nil {absolute : Bool} {cs : List Name} (h : PathText b cap p absolute cs) :
    cs ≠ [] := by
  cases absolute with
  | false => exact PathAt.ne_nil h
  | true => exact h.2.2.ne_nil

/-- A path has no more names than its array bytes. -/
theorem PathAt.length_le {cs : List Name} (h : PathAt b cap p cs) : p + cs.length ≤ cap := by
  induction h with
  | last name _ => exact Nat.succ_le_of_lt ((Nat.le_add_right _ _).trans_lt name.inside)
  | cons name _ _ ih =>
    rw [List.length_cons]
    omega

/-! ## The tokenizer -/

/-- The length of a name that is cut off. -/
theorem NameAt.strlen (h : NameAt b cap p c) (hend : b (p + c.length) = 0) :
    strlen b cap p = .ok c.length := by
  have hin := h.inside
  have hscan : scan (· = 0) b p (cap - p) = .ok (p + c.length) := by
    refine scan_eq_ok_iff.mpr ⟨Nat.le_add_right p _, by omega, decide_eq_true hend, ?_⟩
    intro j hpj hj
    obtain ⟨i, rfl⟩ := Nat.exists_eq_add_of_le hpj
    exact decide_eq_false (h.byte (Nat.lt_of_add_lt_add_left hj)).1
  unfold MbBootTv.strlen
  rw [hscan, ok_bind, Nat.add_sub_cancel_left]
  rfl

/-- The end of the name at `p`. -/
theorem NameAt.scan (h : NameAt b cap p c) (hend : b (p + c.length) = 0 ∨ b (p + c.length) = 47) :
    scan (fun x => x = 0 || x = 47) b p (cap - p) = .ok (p + c.length) := by
  have hin := h.inside
  refine scan_eq_ok_iff.mpr ⟨Nat.le_add_right p _, by omega, ?_, ?_⟩
  · rw [Bool.or_eq_true, decide_eq_true_iff, decide_eq_true_iff]
    exact hend
  · intro j hpj hj
    obtain ⟨i, rfl⟩ := Nat.exists_eq_add_of_le hpj
    obtain ⟨h0, hslash⟩ := h.byte (Nat.lt_of_add_lt_add_left hj)
    rw [decide_eq_false h0, decide_eq_false hslash]
    rfl

/-- The next token of a path. -/
theorem PathAt.strtokSimple {cs : List Name} {input last : Option Nat} (h : PathAt b cap p cs)
    (hp : (input <|> last) = some p) :
    ∃ last' mem, strtokSimple b cap input last 47 = .ok (some p, last', mem) ∧
      Cut mem cap (some p) last' cs := by
  obtain ⟨hcap, hslash⟩ := h.head
  unfold MbBootTv.strtokSimple
  rw [hp]
  simp only [loadByte, if_pos hcap, ok_bind, if_neg hslash]
  unfold strchr
  cases h with
  | @last _ c name hend =>
    refine ⟨none, b, ?_, .last name hend⟩
    rw [name.scan (Or.inl hend)]
    simp only [ok_bind, pure_eq_ok, if_pos hend]
  | @cons _ c cs name hsep rest =>
    refine ⟨some (p + c.length + 1), b.fill (p + c.length) 0 1, ?_, .more ?_ ?_ ?_⟩
    · have h0 : b (p + c.length) ≠ 0 := by
        rw [hsep]
        decide
      rw [name.scan (Or.inr hsep)]
      simp only [ok_bind, pure_eq_ok, if_neg h0]
    · exact name.congr le_rfl fun j hj => if_neg (by omega)
    · exact Bytes.fill_of_mem le_rfl (Nat.lt_succ_self _)
    · exact rest.congr le_rfl fun j hj _ => if_neg (by omega)

/-- The first token of a string, behind at most one slash. -/
theorem PathText.strtokSimple {absolute : Bool} {cs : List Name}
    (h : PathText b cap p absolute cs) (last : Option Nat) :
    ∃ q last' mem, q ≤ p + 1 ∧ strtokSimple b cap (some p) last 47 = .ok (some q, last', mem) ∧
      Cut mem cap (some q) last' cs := by
  cases absolute with
  | false =>
    have hp : (some p <|> last) = some p := rfl
    obtain ⟨last', mem, htok, hcut⟩ := PathAt.strtokSimple h hp
    exact ⟨p, last', mem, Nat.le_succ p, htok, hcut⟩
  | true =>
    obtain ⟨hp, hslash, hpath⟩ := h
    obtain ⟨hp', hnext⟩ := hpath.head
    have hsome (q : Nat) : (some q <|> last) = some q := rfl
    obtain ⟨last', mem, htok, hcut⟩ := hpath.strtokSimple (hsome (p + 1))
    refine ⟨p + 1, last', mem, le_rfl, htok ▸ ?_, hcut⟩
    -- It steps over one slash, and behind that is none.
    unfold MbBootTv.strtokSimple
    simp only [hsome, loadByte, if_pos hp, if_pos hp', ok_bind, if_pos hslash, if_neg hnext]

/-- The token behind the one in hand. -/
theorem Cut.next {last : Option Nat} {cs : List Name} (h : Cut b cap (some p) last (c :: cs)) :
    ∃ tok last' mem, MbBootTv.strtokSimple b cap none last 47 = .ok (tok, last', mem) ∧
      Cut mem cap tok last' cs := by
  cases h with
  | last name hend => exact ⟨none, none, b, rfl, .done⟩
  | more name hend rest =>
    have hq {q : Nat} : (none <|> some q) = some q := rfl
    obtain ⟨last', mem, htok, hcut⟩ := rest.strtokSimple hq
    exact ⟨_, last', mem, htok, hcut⟩

/-! ## What it leaves of the array -/

/-- A token costs the array at most one byte. -/
theorem strtokSimple_mem {mem : Bytes} {input last tok last' : Option Nat} {x : UInt8}
    (h : MbBootTv.strtokSimple b cap input last x = .ok (tok, last', mem)) :
    mem = b ∨ ∃ t, mem = b.fill t 0 1 := by
  unfold MbBootTv.strtokSimple at h
  cases hs : (input <|> last) with
  | none =>
    rw [hs] at h
    cases h
    exact Or.inl rfl
  | some s =>
    rw [hs] at h
    obtain ⟨y, -, h⟩ := bind_eq_ok.mp h
    obtain ⟨t, -, h⟩ := bind_eq_ok.mp h
    cases t with
    | none =>
      cases h
      exact Or.inl rfl
    | some t =>
      cases h
      exact Or.inr ⟨t, rfl⟩

theorem CutOff.strtokSimple {mem : Bytes} {input last tok last' : Option Nat} {x : UInt8}
    (hb : CutOff b cap) (h : MbBootTv.strtokSimple b cap input last x = .ok (tok, last', mem)) :
    CutOff mem cap := by
  obtain ⟨e, hcap, he, hslash⟩ := hb
  have hkeep {y : UInt8} {t j : Nat} (hj : b j ≠ y) (hy : y ≠ 0) : b.fill t 0 1 j ≠ y := by
    unfold Bytes.fill
    split
    · exact hy.symm
    · exact hj
  rcases strtokSimple_mem h with rfl | ⟨t, rfl⟩
  · exact ⟨e, hcap, he, hslash⟩
  · refine ⟨e, hcap, ?_, fun j hj hje => hkeep (hslash j hj hje) (by decide)⟩
    unfold Bytes.fill
    split
    · rfl
    · exact he

/-- The first token cuts a string off, whether a slash stands in front of it or not. -/
theorem strtokSimple_cutsOff {mem : Bytes} {last tok last' : Option Nat}
    (h : MbBootTv.strtokSimple b cap (some 0) last 47 = .ok (tok, last', mem)) :
    CutOff mem cap := by
  unfold MbBootTv.strtokSimple at h
  obtain ⟨x, hx, h⟩ := bind_eq_ok.mp h
  obtain ⟨t, ht, h⟩ := bind_eq_ok.mp h
  obtain ⟨e, hscan, ht⟩ := bind_eq_ok.mp ht
  obtain ⟨hse, hlt, hstop, hmin⟩ := scan_eq_ok_iff.mp hscan
  have hs : (if x = 47 then 0 + 1 else 0) ≤ 1 := by
    split_ifs
    · exact le_rfl
    · exact Nat.zero_le 1
  have hcap : e < cap := by omega
  -- The token has no slash, and one byte in front of it is not looked at.
  have hslash : ∀ j, 0 < j → j < e → b j ≠ 47 := fun j hj hje hb => by
    have := hmin j (hs.trans hj) hje
    simp [hb] at this
  have hend : b e = 0 ∨ b e = 47 := by simpa using hstop
  by_cases h0 : b e = 0
  · obtain rfl : none = t := by simpa [h0] using ht
    cases h
    exact ⟨e, hcap, h0, hslash⟩
  · obtain rfl : some e = t := by simpa [h0] using ht
    cases h
    refine ⟨e, hcap, Bytes.fill_of_mem le_rfl (Nat.lt_succ_self e), fun j hj hje => ?_⟩
    rw [Bytes.fill, if_neg (by omega)]
    exact hslash j hj hje

/-- `strrchr` does not look at the first byte. -/
theorem strrchr_of_cutOff (h : CutOff b cap) : strrchr b cap 0 47 = .ok none := by
  obtain ⟨e, hcap, he, hslash⟩ := h
  have hnone : ∀ k ≤ e, lastFrom b 47 0 k = none := by
    intro k hk
    induction k with
    | zero => rfl
    | succ k ih =>
      have hne : b (0 + k + 1) ≠ 47 := by
        rw [Nat.zero_add]
        rcases Nat.lt_or_eq_of_le hk with hlt | rfl
        · exact hslash _ (Nat.succ_pos k) hlt
        · rw [he]
          decide
      rw [lastFrom, if_neg hne, ih (Nat.le_of_succ_le hk)]
  obtain ⟨t, -, hle, hscan⟩ : ∃ t, 0 ≤ t ∧ t ≤ e ∧ MbBootTv.scan (· = 0) b 0 (cap - 0) = .ok t :=
    exists_scan (Nat.zero_le e) (by omega) (decide_eq_true he)
  unfold strrchr
  rw [hscan, ok_bind, Nat.sub_zero, hnone _ hle]
  rfl

/-! ## Any string

A string need not be a path: it can have slashes in a row, or at its end. Its tokens are in front
of its NUL all the same, one behind the other. -/

theorem strlen_of_nul {s e : Nat} (he : e < cap) (hnul : b e = 0) (hs : s ≤ e) :
    ∃ len, MbBootTv.strlen b cap s = .ok len := by
  obtain ⟨t, -, -, hscan⟩ : ∃ t, s ≤ t ∧ t ≤ e ∧ MbBootTv.scan (· = 0) b s (cap - s) = .ok t :=
    exists_scan hs (by omega) (decide_eq_true hnul)
  unfold MbBootTv.strlen
  rw [hscan]
  exact ⟨_, rfl⟩

/-- How much of a string with its NUL at `e` is left behind the token in hand. -/
def leftBehind (e : Nat) : Option Nat → Nat
  | none => 0
  | some q => e + 1 - q

/-- **One token.** It is in front of the NUL, and less is left behind it. -/
theorem strtokSimple_of_nul {input last : Option Nat} {s e : Nat} (he : e < cap) (hnul : b e = 0)
    (hs : (input <|> last) = some s) (hse : s ≤ e) :
    ∃ c last' mem, MbBootTv.strtokSimple b cap input last 47 = .ok (some c, last', mem) ∧
      mem e = 0 ∧ c ≤ e ∧ (∀ q, last' = some q → q ≤ e) ∧ leftBehind e last' ≤ e - s := by
  unfold MbBootTv.strtokSimple
  rw [hs]
  simp only [loadByte, if_pos (hse.trans_lt he), ok_bind]
  -- A slash is stepped over; the NUL is not.
  obtain ⟨c, hc, hsc, hce⟩ : ∃ c, (if b s = 47 then s + 1 else s) = c ∧ s ≤ c ∧ c ≤ e := by
    refine ⟨_, rfl, ?_⟩
    split_ifs with hslash
    · have hne : s ≠ e := by
        rintro rfl
        rw [hnul] at hslash
        exact absurd hslash (by decide)
      omega
    · exact ⟨le_rfl, hse⟩
  rw [hc]
  have hstop : (decide (b e = 0) || decide (b e = 47)) = true := by simp [hnul]
  obtain ⟨t, hct, hte, hscan⟩ : ∃ t, c ≤ t ∧ t ≤ e ∧
      MbBootTv.scan (fun x => x = 0 || x = 47) b c (cap - c) = .ok t :=
    exists_scan hce (by omega) hstop
  unfold strchr
  rw [hscan]
  simp only [ok_bind, pure_eq_ok]
  by_cases h0 : b t = 0
  · rw [if_pos h0]
    exact ⟨c, none, b, rfl, hnul, hce, nofun, Nat.zero_le _⟩
  · rw [if_neg h0]
    have hne : t ≠ e := by
      rintro rfl
      exact h0 hnul
    refine ⟨c, some (t + 1), b.fill t 0 1, rfl, ?_, hce, fun q hq => ?_, ?_⟩
    · rw [Bytes.fill_of_ge (by omega)]
      exact hnul
    · obtain rfl := Option.some_inj.mp hq
      omega
    · show e + 1 - (t + 1) ≤ e - s
      omega

end Names

end MbBootTv
