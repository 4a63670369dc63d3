import MbBootTv.Console.Video

/-!
# Calls of `printk`

What a call draws does not come back to its caller, but the text has to fit `szBuffer`, which is on
the stack. `PrintkCall.run` keeps that much of a call.
-/

namespace MbBootTv

/-- A call of `printk`. -/
structure PrintkCall where
  szFormat : List UInt8
  args : List Arg

namespace PrintkCall

/-- The text fits `szBuffer`. -/
def Fits (c : PrintkCall) : Prop := ∃ s, printkText c.szFormat c.args = .ok s

/-- `printk (szFormat, …)`, up to what is drawn. -/
def run (c : PrintkCall) : Except Fault Unit := do
  let _ ← printkText c.szFormat c.args
  return ()

theorem fits_iff {c : PrintkCall} : c.Fits ↔ c.run = .ok () := by
  unfold Fits run
  cases printkText c.szFormat c.args with
  | error f =>
    refine iff_of_false ?_ nofun
    rintro ⟨s, h⟩
    cases h
  | ok s => exact iff_of_true ⟨s, rfl⟩ rfl

/-- **The call itself** runs over the buffer where this does, and draws the text otherwise. -/
theorem printk_eq (c : PrintkCall) (m : Vmode) (v : Video) :
    (∃ f, c.run = .error f ∧ printk m c.szFormat c.args v = .error f) ∨
      ∃ s, c.run = .ok () ∧ printk m c.szFormat c.args v = chunkedPrint m s v := by
  unfold run printk
  cases printkText c.szFormat c.args with
  | error f => exact Or.inl ⟨f, rfl, rfl⟩
  | ok s => exact Or.inr ⟨s, rfl, rfl⟩

/-- **A call fits** when its text does, with a NUL, and runs over the buffer otherwise. -/
theorem run_eq {c : PrintkCall} {text : List UInt8} {counts : List (UInt32 × UInt32)}
    (h : vsprintf c.szFormat c.args = .ok ⟨text, counts⟩) :
    c.run = if text.length < szBufferSize then .ok () else .error .overrun := by
  unfold run printkText
  rw [h, ok_bind]
  dsimp only
  by_cases hfits : text.length < szBufferSize
  · rw [if_pos hfits, if_neg (by omega)]
    rfl
  · rw [if_neg hfits, if_pos (by omega)]
    rfl

/-- A format that names a value and ends the line. -/
theorem run_s {label s : List UInt8} (hlabel : '%'.toUInt8 ∉ label) :
    run ⟨label ++ ascii "%s\n", [.str (some s)]⟩ =
      if label.length + s.length + 1 < szBufferSize then .ok () else .error .overrun := by
  have htext : vsprintf (label ++ ascii "%s\n") [.str (some s)] =
      .ok ⟨label ++ s.take (2 ^ 32 - 1) ++ ascii "\n", []⟩ := by
    unfold vsprintf
    rw [vsprintfFrom_text hlabel]
    show vsprintfFrom (ascii "%s" ++ ascii "\n") _ _ = _
    rw [vsprintfFrom_s]
    rfl
  have hnl : (ascii "\n").length = 1 := by decide
  rw [run_eq htext, List.length_append, List.length_append, List.length_take, hnl, szBufferSize]
  exact if_congr (by omega) rfl rfl

/-- A format that names a counter. -/
theorem run_d {label : List UInt8} (hlabel : '%'.toUInt8 ∉ label) (hlen : label.length ≤ 1000)
    (v : UInt32) : run ⟨label ++ ascii "%d\n", [.word v]⟩ = .ok () := by
  have htext : vsprintf (label ++ ascii "%d\n") [.word v] =
      .ok ⟨label ++ decimal v.toInt32 ++ ascii "\n", []⟩ := by
    unfold vsprintf
    rw [vsprintfFrom_text hlabel]
    show vsprintfFrom (ascii "%d" ++ ascii "\n") _ _ = _
    rw [vsprintfFrom_d]
    rfl
  have hnl : (ascii "\n").length = 1 := by decide
  have hdec := decimal_length v.toInt32
  rw [run_eq htext, List.length_append, List.length_append, hnl, szBufferSize, if_pos (by omega)]

theorem run_s_cases {label s : List UInt8} (hlabel : '%'.toUInt8 ∉ label) :
    run ⟨label ++ ascii "%s\n", [.str (some s)]⟩ = .ok () ∨
      run ⟨label ++ ascii "%s\n", [.str (some s)]⟩ = .error .overrun := by
  rw [run_s hlabel]
  split_ifs
  · exact Or.inl rfl
  · exact Or.inr rfl

/-- Several calls, one after another. -/
theorem forM_ends {cs : List PrintkCall}
    (h : ∀ c ∈ cs, c.run = .ok () ∨ c.run = .error .overrun) :
    Ends (fun f => f = .overrun ∧ ∃ c ∈ cs, ¬ c.Fits) (forM cs run) fun _ => ∀ c ∈ cs, c.Fits := by
  refine Ends.forM fun c hc => ?_
  rcases h c hc with hrun | hrun
  · rw [fits_iff, hrun]
    rfl
  · rw [hrun]
    refine ⟨rfl, c, hc, fun hfits => ?_⟩
    rw [fits_iff, hrun] at hfits
    cases hfits

end PrintkCall

end MbBootTv
