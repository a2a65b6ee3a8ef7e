import LazyLisp.Proofs.Source.Extension

namespace LazyLisp.Source

/-- Closes open literals, innermost first, once the innermost has got one more item. A map may need
another item to come out even. -/
def closing : List OpenForm → List Char
  | [] => ['\n']
  | o :: stack =>
    (if o.bracket = .curly ∧ o.items.length % 2 = 0 then [' ', '0'] else []) ++
      o.bracket.closer :: closing stack

theorem exists_closing_eq_cons (stack : List OpenForm) :
    ∃ c cs, closing stack = c :: cs ∧ c ∈ Text.boundaries := by
  cases stack with
  | nil => exact ⟨'\n', [], rfl, by decide⟩
  | cons o stack =>
    unfold closing
    split
    · exact ⟨' ', _, rfl, by decide⟩
    · exact ⟨o.bracket.closer, _, rfl, Context.closer_mem_boundaries o.bracket⟩

theorem exists_close? {b : Bracket} {items : List Form} (h : b = .curly → items.length % 2 = 0) :
    ∃ f, OpenForm.close? ⟨b, items, 0⟩ = some f := by
  cases b with
  | round => exact ⟨_, rfl⟩
  | square => exact ⟨_, rfl⟩
  | curly =>
    refine Option.ne_none_iff_exists'.mp fun hn => ?_
    have hodd := (Form.ofItemsOnto_eq_none_iff [] items.reverse).mp hn
    have heven := h rfl
    rw [List.length_reverse] at hodd
    omega

namespace Context

variable {x : Context} {cs : List Char} {l : Nat}

theorem rest_zero {c : Char} (hc : c ∈ Text.boundaries) :
    (x.idle ('0' :: c :: cs) l).rest = x.accept (.atom (.int 0)) (c :: cs) l :=
  rest_int (i := 0) (Text.atBoundary_cons hc cs)

theorem accept_closing (x : Context) (f : Form) (l : Nat) : (x.accept f (closing x.stack) l).2 = none := by
  obtain ⟨name, stack, quotes⟩ := x
  induction stack generalizing f l with
  | nil =>
    change ((outer name).idle ['\n'] l).rest.2 = none
    rw [rest_blank rfl, Reader.rest_of_text_eq_nil (Reader.lineFed_outer (by simp [WholeLines]) name _) rfl]
    rfl
  | cons o stack ih =>
    obtain ⟨b, items, q⟩ := o
    have close {items : List Form} (l : Nat) (h : b = .curly → items.length % 2 = 0) :
        ((within ⟨name, stack, quotes⟩ b items).idle (b.closer :: closing stack) l).rest.2 = none := by
      obtain ⟨g, hg⟩ := exists_close? h
      rw [rest_close hg]
      exact ih g _
    change ((within ⟨name, stack, quotes⟩ b (f.quotedTimes q :: items)).idle
      (closing (⟨b, items, q⟩ :: stack)) l).rest.2 = none
    unfold closing
    split
    · next h =>
      change ((within ⟨name, stack, quotes⟩ b (f.quotedTimes q :: items)).idle
        (' ' :: '0' :: b.closer :: closing stack) l).rest.2 = none
      rw [rest_blank rfl, rest_zero (closer_mem_boundaries b), accept_within]
      have heven : items.length % 2 = 0 := h.2
      exact close _ fun _ => by simp only [List.length_cons]; omega
    · next h =>
      have hodd : b = .curly → items.length % 2 = 1 := fun hb => by simp_all
      exact close _ fun hb => by have := hodd hb; simp only [List.length_cons]; omega

end Context

def Reader.completion (r : Reader) : List Char :=
  (if r.mode = .string then ['\x22'] else [' ', '0']) ++ closing r.stack

namespace Reader

variable {r : Reader}

theorem startsApart_completion (r : Reader) : StartsApart r.completion := by
  unfold completion
  split <;> simp [StartsApart, Text.isSeparator, Text.isBlank]

theorem rest_completion (hr : r.LineFed) (ht : r.cursor.text = []) :
    (r.embed 0 r.completion).rest.2 = none := by
  rw [embed_eq_reader hr ht]
  rcases hr.rested ht with hm | ⟨hm, htk⟩
  · have hc : r.completion = '\x22' :: closing r.stack := by simp [completion, hm]
    rw [hc, hm, Context.rest_emit (f := .atom (.str r.text)) rfl]
    exact r.context.accept_closing _ _
  · have hc : r.completion = ' ' :: '0' :: closing r.stack := by simp [completion, hm]
    obtain ⟨c, cs, hcs, hboundary⟩ := exists_closing_eq_cons r.stack
    rw [hc, hm, htk, hcs, ← Context.idle, Context.rest_blank rfl, Context.rest_zero hboundary, ← hcs]
    exact r.context.accept_closing _ _

end Reader

theorem exists_completion {text name : String} {fault : Fault} (hw : WholeLines text.toList)
    (h : (read text name).fault? = some fault) (hi : fault.incomplete = true) :
    ∃ more, (read (text ++ more) name).fault? = none := by
  have hr := Reader.lineFed_start hw name
  obtain ⟨fs, e, hl, he, hend⟩ := Reader.exists_end hr
  change (Reader.start text name).rest.2 = some fault at h
  have ht : e.cursor.text = [] := by
    rcases hend with ⟨ht, -⟩ | ⟨-, fault', hrest, hi'⟩
    · exact ht
    · rw [hrest] at h
      cases h
      exact Bool.noConfusion (hi.symm.trans hi')
  refine ⟨String.ofList e.completion, ?_⟩
  change (Reader.start (text ++ String.ofList e.completion) name).rest.2 = none
  rw [Reader.start_append, String.toList_ofList]
  rcases hl.rest_embed hr 0 e.completion with h | h
  · rw [h]
    exact Reader.rest_completion he ht
  · exact absurd e.startsApart_completion h.1

/-- A fault of a text that ends with a line end is incomplete if and only if some text after it makes the
whole readable. -/
theorem incomplete_iff_exists_more {body name : String} {fault : Fault}
    (h : (read (body ++ "\n") name).fault? = some fault) :
    fault.incomplete = true ↔ ∃ more, (read (body ++ "\n" ++ more) name).fault? = none := by
  have hw := WholeLines.append_newline body
  refine ⟨exists_completion hw h, fun ⟨more, hm⟩ => ?_⟩
  cases hi : fault.incomplete with
  | true => rfl
  | false => exact absurd hm (fault_append hw h hi more)

theorem incomplete_iff_exists_more_brackets :
    (∃ more, (read ("[\x7b:a '(" ++ "\n" ++ more) "repl").fault? = none) ∧
      ¬ ∃ more, (read ("(1 ]" ++ "\n" ++ more) "repl").fault? = none := by
  have ho : (read ("[\x7b:a '(" ++ "\n") "repl").fault? =
      some ⟨2, "repl", .unterminatedCollection ')'⟩ := by decide +kernel
  have hc : (read ("(1 ]" ++ "\n") "repl").fault? =
      some ⟨1, "repl", .mismatchedClose ')' ']'⟩ := by decide +kernel
  refine ⟨(incomplete_iff_exists_more ho).mp rfl, fun h => ?_⟩
  exact Bool.noConfusion ((incomplete_iff_exists_more hc).mpr h)

end LazyLisp.Source
