import LazyLisp.Proofs.Source.Endings
import LazyLisp.Proofs.Source.Extension

namespace LazyLisp.Source

theorem Cursor.takeCharLiteral_embed_startsLine {s : Cursor} {c : Char} {k : Nat} {ds : List Char} (hd : StartsLine ds)
    (h : ds = [] ∨ ∃ v t, takeCharLiteral c s = .ok (v, t)) :
    takeCharLiteral c (s.embed k ds) = embedScan k ds (takeCharLiteral c s) := by
  have hsep (s : Cursor) := atSeparator_embed_of_startsApart (k := k) hd.startsApart s
  refine takeCharLiteral_embed (hsep s) (fun hs => ?_) fun _ t _ => hsep t
  rintro ⟨hne, -, e, he⟩
  obtain ⟨v, t, h⟩ := h.resolve_left hne
  rw [takeCharLiteral_eq, hs, he] at h
  cases h

def Fault.lower (k : Nat) (fault : Fault) : Fault := { fault with line := fault.line + k }

namespace Reader

variable {r t : Reader} {s : Cursor} {c : Char} {k : Nat} {cs ds : List Char}

theorem inCharacter_embed_startsLine (hd : StartsLine ds)
    (hs : ds = [] ∨ (r.inCharacter c).isFault = false) :
    (r.embed k ds).inCharacter c = (r.inCharacter c).embed k ds := by
  refine inCharacter_embed (Cursor.takeCharLiteral_embed_startsLine hd (hs.imp_right fun hs => ?_))
  unfold inCharacter at hs
  split at hs
  · next value u hu => exact ⟨value, u, hu⟩
  · cases hs

/-- A carriage return that ends a comment and the text takes the line end after it along. Reading goes on
as if it had not. -/
theorem resume_inComment_embed (hd : StartsLine ds) (hf : r.failed = false) (ht : r.token = []) :
    resume ((r.embed k ds).inComment c) = resume ((r.inComment c).embed k ds) := by
  by_cases hs : r.cursor.text = [] ∧ ds ≠ []
  · obtain ⟨hs, hne⟩ := hs
    obtain ⟨cs, rfl⟩ := hd.resolve_left hne
    obtain ⟨name, ⟨rest, held, line⟩, mode, token, stack, quotes, failed⟩ := r
    obtain ⟨rfl, rfl⟩ : rest = [] ∧ held = none := by
      simpa [Cursor.text, and_comm] using hs
    obtain rfl : failed = false := hf
    obtain rfl : token = [] := ht
    unfold inComment
    split
    · rfl
    split
    · exact (Context.rest_blank (x := ⟨name, stack, quotes⟩) rfl).symm
    · rfl
  · rw [inComment_embed fun ht => .inr (Decidable.byContradiction fun hd => hs ⟨ht, hd⟩)]

theorem resume_step_embed (hd : StartsLine ds) (hf : r.failed = false)
    (hu : UnderWay r.mode r.token (some c)) (hs : ds = [] ∨ (r.step c).isFault = false) :
    resume ((r.embed k ds).step c) = resume ((r.step c).embed k ds) := by
  by_cases hm : r.mode = .comment
  · have hme : (r.embed k ds).mode = .comment := hm
    rw [hm] at hu
    rw [step, step, hme, hm]
    exact resume_inComment_embed hd hf hu
  · refine congrArg resume (step_embed (fun _ => .inr hd) (fun hc => ?_) (fun hc => ?_) fun hc => absurd hc hm)
    · rw [step, hc] at hs
      exact inCharacter_embed_startsLine hd hs
    · rw [step, hc] at hs
      exact inString_embed fun _ => .inr hs

theorem rest_embed_of_take?_startsLine (hd : StartsLine ds) (hf : r.failed = false) (hr : r.Sound)
    (ht : r.cursor.take? = some (c, s))
    (hs : ds = [] ∨ ({ r with cursor := s }.step c).isFault = false) :
    (r.embed k ds).rest = resume (({ r with cursor := s }.step c).embed k ds) := by
  have he : (r.embed k ds).cursor.take? = some (c, s.embed k ds) := Cursor.take?_embed ht
  have hu := underWay_of_take? hr ht
  rw [rest_of_take? (r := r.embed k ds) hf he]
  exact resume_step_embed (r := { r with cursor := s }) hd hf hu hs

theorem sound_of_take? (hr : r.Sound) (ht : r.cursor.take? = some (c, s))
    (hs : ({ r with cursor := s }.step c).reader? = some t) : t.Sound := by
  have hu := underWay_of_take? hr ht
  have hstep := sound_step (r := { r with cursor := s }) hr.items hu
  cases he : { r with cursor := s }.step c with
  | more u =>
    rw [he] at hs hstep
    cases hs
    exact hstep
  | form f u =>
    rw [he] at hs hstep
    cases hs
    exact hstep.2
  | fault reason u =>
    rw [he] at hs
    cases hs

theorem flush_embed (r : Reader) : (r.embed k ds).flush = r.flush.embed k ds := by
  have hm : (r.embed k ds).mode = r.mode := rfl
  have hk : (r.embed k ds).keywordComplete = r.keywordComplete := rfl
  have hn : (r.embed k ds).nameComplete = r.nameComplete := rfl
  unfold flush
  rw [hm, token_embed, hk, hn]
  split
  case h_1 | h_2 =>
    split
    · rfl
    · exact emit_embed r.cleared _
  case h_5 | h_6 =>
    split
    · exact emit_embed r.cleared _
    · rfl
  case h_7 | h_8 => exact emitNumber_embed r _
  all_goals rfl

theorem rest_embed_lines_of_end (hr : r.Sound) (hf : r.failed = false) (ht : r.cursor.take? = none)
    (k : Nat) : (r.embed k []).rest = (r.rest.1, r.rest.2.map (Fault.lower k)) := by
  have hfe : (r.embed k []).failed = false := hf
  have he : (r.embed k []).cursor.take? = none := Cursor.take?_embed_nil ht
  rcases flush_cases hr with ⟨f, h⟩ | ⟨reason, h⟩ | h
  · rw [rest_of_end_pending hf ht h, rest_of_end_pending hfe he h]
    change r.context.accept f [] (r.line + k) = _
    cases hs : r.context.stack with
    | nil => simp [Context.accept_nil_of_stack_eq_nil hs]
    | cons o stack => simp [Context.accept_nil_of_stack_eq_cons hs, Fault.lower]
  · have hfault : (r.embed k []).flush = .fault reason (r.embed k []) := by
      rw [flush_embed, h]
      rfl
    rw [rest_of_end_fault hf ht h, rest_of_end_fault hfe he hfault]
    rfl
  · rw [rest_of_end_between hf ht h, rest_of_end_between hfe he h]
    have hc : (r.embed k []).complaint? = r.complaint? := rfl
    rw [hc]
    cases r.complaint? <;> rfl

theorem rest_embed_lines (hr : r.Sound) (hf : r.failed = false) (k : Nat) :
    (r.embed k []).rest = (r.rest.1, r.rest.2.map (Fault.lower k)) := by
  refine induction_on_text (motive := fun r => r.Sound →
    (r.embed k []).rest = (r.rest.1, r.rest.2.map (Fault.lower k))) ?_ ?_ r hf hr
  · intro r hf ht hr
    exact rest_embed_lines_of_end hr hf ht k
  · intro r c s hf ht ih hr
    rw [rest_of_take? hf ht, rest_embed_of_take?_startsLine (.inl rfl) hf hr ht (.inl rfl)]
    cases hs : { r with cursor := s }.step c with
    | more t =>
      have hst : ({ r with cursor := s }.step c).reader? = some t := by rw [hs]; rfl
      exact ih t hst (sound_of_take? hr ht hst)
    | form f t =>
      have hst : ({ r with cursor := s }.step c).reader? = some t := by rw [hs]; rfl
      have hrest := ih t hst (sound_of_take? hr ht hst)
      simp only [Step.embed, resume, hrest]
    | fault reason t => rfl

theorem context_eq_outer (h : r.complaint? = none) : r.context = Context.outer r.name := by
  obtain ⟨name, cursor, mode, token, stack, quotes, failed⟩ := r
  cases stack with
  | nil =>
    have hq : ¬ quotes > 0 := fun hq => by simp [complaint?, hq] at h
    obtain rfl : quotes = 0 := by omega
    rfl
  | cons o stack => cases h

theorem rest_embed_newline_of_end (hr : r.Sound) (hf : r.failed = false) (ht : r.cursor.take? = none)
    (h : r.rest.2 = none) (cs : List Char) :
    (r.embed 0 ('\n' :: cs)).rest =
      (r.rest.1 ++ ((Context.outer r.name).idle cs (r.line + 1)).rest.1,
        ((Context.outer r.name).idle cs (r.line + 1)).rest.2) := by
  have he : r.embed 0 ('\n' :: cs) = r.context.reader r.mode r.token ('\n' :: cs) r.line :=
    congrArg (embed 0 ('\n' :: cs)) (eq_context_reader hf ht)
  have hline : ((Context.outer r.name).idle ('\n' :: cs) r.line).rest =
      ((Context.outer r.name).idle cs (r.line + 1)).rest := Context.rest_blank rfl
  rw [he, ← hline]
  rcases flush_cases hr with ⟨f, hp⟩ | ⟨reason, hp⟩ | hb
  · -- The line end completes the token as the end of the text does.
    have hrest := rest_of_end_pending hf ht hp
    have hend : (r.context.reader r.mode r.token ('\n' :: cs) r.line).rest =
        r.context.accept f ('\n' :: cs) r.line := Context.rest_pending_cons hp (by decide)
    cases hs : r.context.stack with
    | nil =>
      have hout : r.context = ⟨r.name, [], r.quotes⟩ := congrArg (Context.mk r.name · r.quotes) hs
      rw [hrest, hend, Context.accept_nil_of_stack_eq_nil hs, hout]
      rfl
    | cons o stack =>
      rw [hrest, Context.accept_nil_of_stack_eq_cons hs] at h
      cases h
  · rw [rest_of_end_fault hf ht hp] at h
    cases h
  · -- With no complaint at the end, nothing is open, as before the first character of a text.
    have hrest := rest_of_end_between hf ht hb
    rw [hrest] at h ⊢
    have hout : r.context = Context.outer r.name :=
      context_eq_outer (Option.map_eq_none_iff.mp h)
    obtain ⟨hm | hm, htk⟩ := hb
    · rw [hm, htk, hout]
      rfl
    · have hc : ((Context.outer r.name).reader .comment [] ('\n' :: cs) r.line).rest =
          ((Context.outer r.name).idle cs (r.line + 1)).rest := Context.rest_more rfl
      rw [hm, htk, hout, hc, hline]
      rfl

theorem rest_embed_newline (hr : r.Sound) (hf : r.failed = false) (h : r.rest.2 = none) (cs : List Char) :
    (r.embed 0 ('\n' :: cs)).rest =
      (r.rest.1 ++ ((Context.outer r.name).idle cs (r.cursor.lastLine + 1)).rest.1,
        ((Context.outer r.name).idle cs (r.cursor.lastLine + 1)).rest.2) := by
  refine induction_on_text (motive := fun r => r.Sound → r.rest.2 = none →
    (r.embed 0 ('\n' :: cs)).rest =
      (r.rest.1 ++ ((Context.outer r.name).idle cs (r.cursor.lastLine + 1)).rest.1,
        ((Context.outer r.name).idle cs (r.cursor.lastLine + 1)).rest.2)) ?_ ?_ r hf hr h
  · intro r hf ht hr h
    have hl : r.cursor.lastLine = r.line := by
      rw [eq_context_reader hf ht]
      rfl
    rw [hl]
    exact rest_embed_newline_of_end hr hf ht h cs
  · intro r c s hf ht ih hr h
    rw [rest_of_take? hf ht] at h ⊢
    have hd : StartsLine ('\n' :: cs) := .inr ⟨cs, rfl⟩
    cases hs : { r with cursor := s }.step c with
    | more t =>
      have hst : ({ r with cursor := s }.step c).reader? = some t := by rw [hs]; rfl
      have hk := keeps_of_take? ht hst
      rw [hs] at h
      rw [rest_embed_of_take?_startsLine hd hf hr ht (.inr (by rw [hs]; rfl)), hs, ← hk.name, ← hk.lastLine]
      exact ih t hst (sound_of_take? hr ht hst) h
    | form f t =>
      have hst : ({ r with cursor := s }.step c).reader? = some t := by rw [hs]; rfl
      have hk := keeps_of_take? ht hst
      rw [hs] at h
      have hrest := ih t hst (sound_of_take? hr ht hst) h
      rw [rest_embed_of_take?_startsLine hd hf hr ht (.inr (by rw [hs]; rfl)), hs, ← hk.name, ← hk.lastLine]
      simp only [Step.embed, resume, hrest, List.cons_append]
    | fault reason t =>
      rw [hs] at h
      cases h

end Reader

/-- A text that is read without fault, a line end and any text after it give the forms of the first text
and then all that the second gives, with its fault as many lines further down. -/
theorem read_append_newline {text name : String} (h : (read text name).fault? = none) (more : String) :
    read (text ++ "\n" ++ more) name =
      ⟨(read text name).forms ++ (read more name).forms,
        (read more name).fault?.map (Fault.lower (text.toList.count '\n' + 1))⟩ := by
  have hsound (text : String) : (Reader.start text name).Sound :=
    ⟨by simp [ItemsReadable, Reader.start], .inl rfl⟩
  have hstart : Reader.start (text ++ "\n" ++ more) name =
      (Reader.start text name).embed 0 ('\n' :: more.toList) := by
    rw [String.append_assoc, Reader.start_append]
    simp
  have hlast : (Reader.start text name).cursor.lastLine = 1 + text.toList.count '\n' :=
    lineAfter_eq_add_count 1 text.toList
  have hmore : (Context.outer name).idle more.toList (1 + text.toList.count '\n' + 1) =
      (Reader.start more name).embed (text.toList.count '\n' + 1) [] := by
    simp [Reader.start, Cursor.start, Reader.embed, Cursor.embed, Context.idle, Context.reader,
      Context.outer, Nat.add_assoc]
  have hrest := Reader.rest_embed_newline (hsound text) rfl h more.toList
  have hname : (Reader.start text name).name = name := rfl
  rw [hlast, hname, hmore, Reader.rest_embed_lines (hsound more) rfl] at hrest
  simp only [read, hstart, hrest]

theorem read_append_newline_comment :
    (read "a\n'b;c\x0d" "f").fault? = none ∧
      (read ("a\n'b;c\x0d" ++ "\n" ++ "0\n)") "f").forms =
        (read "a\n'b;c\x0d" "f").forms ++ (read "0\n)" "f").forms ∧
      (read ("a\n'b;c\x0d" ++ "\n" ++ "0\n)") "f").fault? = some ⟨4, "f", .unexpectedClose ')'⟩ := by
  have hs : (read "a\n'b;c\x0d" "f").fault? = none := by decide +kernel
  have ht : (read "0\n)" "f").fault? = some ⟨2, "f", .unexpectedClose ')'⟩ := by decide +kernel
  have h := read_append_newline hs "0\n)"
  rw [ht] at h
  refine ⟨hs, ?_, ?_⟩
  · rw [h]
  · rw [h]
    rfl

end LazyLisp.Source
