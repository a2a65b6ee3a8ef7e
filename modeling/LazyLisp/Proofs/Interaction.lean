import LazyLisp.Proofs.Source.Extension
import LazyLisp.Repl

namespace LazyLisp

namespace Repl

open Source (Reading WholeLines)

def unlines (lines : List String) : String := String.join (lines.map (· ++ "\n"))

theorem unlines_cons (line : String) (lines : List String) :
    unlines (line :: lines) = line ++ "\n" ++ unlines lines := by
  simp [unlines, String.join_cons]

theorem unlines_append (lines more : List String) :
    unlines (lines ++ more) = unlines lines ++ unlines more := by
  induction lines with
  | nil => simp [unlines, String.join_nil]
  | cons line lines ih => simp [unlines_cons, ih, String.append_assoc]

theorem wholeLines_unlines (lines : List String) : WholeLines (unlines lines).toList := by
  induction lines with
  | nil => simp [unlines, String.join_nil, WholeLines]
  | cons line lines ih =>
    rw [unlines_cons, String.toList_append]
    exact (WholeLines.append_newline line).append ih

def showBlock (forms : List Form) : Eval String := showReading ⟨forms, none⟩

theorem showBlock_nil : showBlock [] = pure "" := rfl

theorem feed_of_incomplete {pending line : String} {fault : Source.Fault}
    (h : (Source.read (pending ++ line ++ "\n") "repl").fault? = some fault)
    (hi : fault.incomplete = true) : feed pending line = pure ("", pending ++ line ++ "\n") := by
  simp [feed, h, hi]

theorem feed_of_complete {pending line : String}
    (h : (Source.read (pending ++ line ++ "\n") "repl").fault? = none) :
    feed pending line =
      (·, "") <$> showBlock (Source.read (pending ++ line ++ "\n") "repl").forms := by
  have hr : Source.read (pending ++ line ++ "\n") "repl" =
      ⟨(Source.read (pending ++ line ++ "\n") "repl").forms, none⟩ := by rw [← h]
  simp only [feed, h, showBlock]
  rw [← hr]
  simp

def shownOf (p : List Turn × String) : List String × String := (p.1.map Turn.shown, p.2)

theorem shownOf_turns_cons (pending line : String) (rest : List String) :
    shownOf <$> turns pending (line :: rest) =
      feed pending line >>= fun p => (fun q => (p.1 :: q.1, q.2)) <$> (shownOf <$> turns p.2 rest) := by
  funext w
  simp only [map_eq_pure_bind, Eval.bind_apply, turns, Eval.read]
  cases feed pending line w with
  | value p w =>
    simp only
    cases turns p.2 rest w <;> rfl
  | failure e w => rfl
  | outOfFuel => rfl

theorem forms_read_empty : (Source.read "" "repl").forms = [] := by
  have hr : (Source.Reader.start "" "repl").LineFed :=
    Source.Reader.lineFed_start (by simp [WholeLines]) "repl"
  simp [Source.read, Source.Reader.rest_of_text_eq_nil hr rfl]

theorem exists_blocks (pending : String) (lines : List String)
    (hp : pending = "" ∨ (Source.read pending "repl").fault? ≠ none)
    (hr : (Source.read (pending ++ unlines lines) "repl").fault? = none) :
    ∃ blocks : List (List Form), blocks.length = lines.length ∧
      blocks.flatten = (Source.read (pending ++ unlines lines) "repl").forms ∧
      shownOf <$> turns pending lines = (·, "") <$> blocks.mapM showBlock := by
  induction lines generalizing pending with
  | nil =>
    have hu : pending ++ unlines [] = pending := by simp [unlines, String.join_nil]
    rw [hu] at hr ⊢
    obtain rfl := hp.resolve_right fun h => h hr
    exact ⟨[], rfl, forms_read_empty.symm, rfl⟩
  | cons line rest ih =>
    have hu : pending ++ unlines (line :: rest) = pending ++ line ++ "\n" ++ unlines rest := by
      simp [unlines_cons, String.append_assoc]
    have hw := WholeLines.append_newline (pending ++ line)
    rw [hu] at hr ⊢
    rw [shownOf_turns_cons]
    cases hf : (Source.read (pending ++ line ++ "\n") "repl").fault? with
    | none =>
      obtain ⟨hforms, hrest⟩ := Source.read_append hw (wholeLines_unlines rest) hf hr
      have he : "" ++ unlines rest = unlines rest := String.empty_append
      obtain ⟨blocks, hlen, hflat, hturns⟩ := ih "" (.inl rfl) (he ▸ hrest)
      refine ⟨(Source.read (pending ++ line ++ "\n") "repl").forms :: blocks, by simp [hlen], ?_, ?_⟩
      · rw [List.flatten_cons, hflat, he, hforms]
      · rw [feed_of_complete hf, bind_map_left]
        simp only [hturns]
        simp [List.mapM_cons]
    | some fault =>
      have hi : fault.incomplete = true := by
        cases hi : fault.incomplete with
        | true => rfl
        | false => exact absurd hr (Source.fault_append hw hf hi (unlines rest))
      obtain ⟨blocks, hlen, hflat, hturns⟩ := ih (pending ++ line ++ "\n") (.inr (by simp [hf])) hr
      refine ⟨[] :: blocks, by simp [hlen], hflat, ?_⟩
      rw [feed_of_incomplete hf hi, pure_bind, hturns]
      simp [List.mapM_cons, showBlock_nil]

def printEach : List Form → Eval (List String)
  | [] => pure []
  | f :: rest => do
    let v ← evaluator.eval f.toValue
    let text ← evaluator.render .readable v
    let later ← printEach rest
    pure (text :: later)

theorem printEach_append (fs gs : List Form) :
    printEach (fs ++ gs) = printEach fs >>= fun r => (r ++ ·) <$> printEach gs := by
  induction fs with
  | nil => simp [printEach]
  | cons f fs ih => simp [printEach, ih]

variable {w w' : World} {results : List String}

theorem showForms_of_printEach {forms : List Form} (shown : String)
    (h : printEach forms w = .value results w') :
    showForms shown forms w = .value (shown ++ unlines results, true) w' := by
  induction forms generalizing shown w results with
  | nil =>
    cases h
    simp [showForms, unlines, String.join_nil, Eval.pure_apply]
  | cons f rest ih =>
    obtain ⟨v, w₁, hv, h⟩ := Eval.bind_eq_value_iff.mp h
    obtain ⟨text, w₂, ht, h⟩ := Eval.bind_eq_value_iff.mp h
    obtain ⟨later, w₃, hl, h⟩ := Eval.bind_eq_value_iff.mp h
    cases h
    have hrest := ih (shown ++ text ++ "\n") hl
    simp only [showForms, Eval.bind_apply, Eval.attempt, hv, ht, hrest]
    simp [unlines_cons, String.append_assoc]

theorem showBlock_of_printEach {forms : List Form} (h : printEach forms w = .value results w') :
    showBlock forms w = .value (unlines results) w' := by
  have hs := showForms_of_printEach "" h
  simp only [showBlock, showReading, Eval.bind_apply, hs]
  simp [Eval.pure_apply]

theorem mapM_showBlock_of_printEach {blocks : List (List Form)}
    (h : printEach blocks.flatten w = .value results w') :
    ∃ shown, blocks.mapM showBlock w = .value shown w' ∧ String.join shown = unlines results := by
  induction blocks generalizing w results with
  | nil =>
    cases h
    exact ⟨[], rfl, rfl⟩
  | cons block blocks ih =>
    rw [List.flatten_cons, printEach_append] at h
    obtain ⟨first, w₁, hf, h⟩ := Eval.bind_eq_value_iff.mp h
    rw [map_eq_pure_bind] at h
    obtain ⟨later, w₂, hl, h⟩ := Eval.bind_eq_value_iff.mp h
    cases h
    obtain ⟨shown, hs, hj⟩ := ih hl
    refine ⟨unlines first :: shown, ?_, ?_⟩
    · simp only [List.mapM_cons, Eval.bind_apply, showBlock_of_printEach hf, hs, Eval.pure_apply]
    · rw [String.join_cons, hj, unlines_append]

/-- Lines whose whole text is readable are taken without rest. Their forms are shown in order, a block
after each line, and if they can all be evaluated and printed, that is what happens, each form once. -/
theorem turns_of_read_unlines {lines : List String} {forms : List Form}
    (hr : Source.read (unlines lines) "repl" = ⟨forms, none⟩) :
    (∃ blocks : List (List Form), blocks.length = lines.length ∧ blocks.flatten = forms ∧
      shownOf <$> turns "" lines = (·, "") <$> blocks.mapM showBlock) ∧
    ∀ (w w' : World) (results : List String), printEach forms w = .value results w' →
      ∃ ts, turns "" lines w = .value (ts, "") w' ∧
        String.join (ts.map Turn.shown) = unlines results := by
  have he : "" ++ unlines lines = unlines lines := String.empty_append
  have hb := exists_blocks "" lines (.inl rfl) (by rw [he, hr])
  rw [he, hr] at hb
  obtain ⟨blocks, hlen, rfl, hturns⟩ := hb
  refine ⟨⟨blocks, hlen, rfl, hturns⟩, fun w w' results hw => ?_⟩
  obtain ⟨shown, hs, hj⟩ := mapM_showBlock_of_printEach hw
  have hmap : (shownOf <$> turns "" lines) w = .value (shown, "") w' := by
    rw [hturns, map_eq_pure_bind, Eval.bind_apply, hs]
    rfl
  rw [map_eq_pure_bind] at hmap
  obtain ⟨⟨ts, last⟩, w₁, ht, h⟩ := Eval.bind_eq_value_iff.mp hmap
  cases h
  exact ⟨ts, ht, hj⟩

def cutLines : List String := ["[1 \"a", "b\" \\", "] :k"]

theorem turns_of_read_unlines_cut :
    ∃ ts w', printEach (Source.read (unlines cutLines) "repl").forms World.empty =
        .value ["[1 \"a\nb\" \\newline]", ":k"] w' ∧
      turns "" cutLines World.empty = .value (ts, "") w' ∧
      String.join (ts.map Turn.shown) = "[1 \"a\nb\" \\newline]\n:k\n" := by
  have hf : (Source.read (unlines cutLines) "repl").fault? = none := by decide +kernel
  have hr : Source.read (unlines cutLines) "repl" =
      ⟨(Source.read (unlines cutLines) "repl").forms, none⟩ := by rw [← hf]
  have hp : (match printEach (Source.read (unlines cutLines) "repl").forms World.empty with
      | .value results _ => results
      | _ => []) = ["[1 \"a\nb\" \\newline]", ":k"] := by decide +kernel
  cases hw : printEach (Source.read (unlines cutLines) "repl").forms World.empty with
  | value results w' =>
    rw [hw] at hp
    obtain rfl : results = _ := hp
    obtain ⟨ts, ht, hs⟩ := (turns_of_read_unlines hr).2 _ _ _ hw
    exact ⟨ts, w', rfl, ht, hs⟩
  | failure e w' =>
    rw [hw] at hp
    cases hp
  | outOfFuel =>
    rw [hw] at hp
    cases hp

end Repl

end LazyLisp
