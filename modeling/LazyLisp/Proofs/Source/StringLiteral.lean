import LazyLisp.Proofs.Source.RoundTrip

namespace LazyLisp

namespace Text

theorem escapeLetter?_eq_some_iff {c d : Char} : escapeLetter? c = some d ↔ escaped? d = some c := by
  refine ⟨escaped?_escapeLetter?, fun h => ?_⟩
  unfold escaped? at h
  split at h <;> simp_all [escapeLetter?] <;> subst h <;> rfl

theorem ne_of_escapeLetter?_eq_none {c : Char} (h : escapeLetter? c = none) : c ≠ '\\' ∧ c ≠ '\x22' := by
  constructor <;>
  · rintro rfl
    cases h

theorem isStringBody_escape (text : List Char) : isStringBody (escape text) = true := by
  induction text with
  | nil => rfl
  | cons c text ih =>
    cases h : escapeLetter? c with
    | some d => simpa [escape, h, isStringBody] using ih
    | none =>
      obtain ⟨hb, hq⟩ := ne_of_escapeLetter?_eq_none h
      simp [escape, h, isStringBody, hb, hq, ih]

def escapedBody (text : String) : String := String.ofList (escape text.toList)

def interpreted (body : String) : String := String.ofList (unescape body.toList)

theorem interpreted_escapedBody (text : String) : interpreted (escapedBody text) = text := by
  rw [interpreted, escapedBody, String.toList_ofList, unescape_escape, String.ofList_toList]

theorem interpreted_of_not_mem {body : String} (h : '\\' ∉ body.toList) : interpreted body = body := by
  rw [interpreted, unescape_of_not_mem h, String.ofList_toList]

theorem isStringBody_escapedBody (text : String) : isStringBody (escapedBody text).toList = true := by
  rw [escapedBody, String.toList_ofList]
  exact isStringBody_escape text.toList

def quoted (body : String) : String := String.ofList (Atom.text .readable (.str body))

theorem toList_quoted (body : String) : (quoted body).toList = '\x22' :: (body.toList ++ ['\x22']) :=
  String.toList_ofList

/-- A text has a body in front of its first quote that no backslash takes. Without such a quote, it is
a body itself or has a backslash too many. -/
theorem stringBody_cases (cs : List Char) :
    isStringBody cs = true ∨ (∃ body tail, isStringBody body = true ∧ cs = body ++ '\x22' :: tail) ∨
      ∃ body, isStringBody body = true ∧ cs = body ++ ['\\'] := by
  fun_induction isStringBody cs with
  | case1 => exact .inl rfl
  | case2 c cs ih =>
    rcases ih with hb | ⟨body, tail, hb, rfl⟩ | ⟨body, hb, rfl⟩
    · exact .inl hb
    · exact .inr (.inl ⟨'\\' :: c :: body, tail, hb, rfl⟩)
    · exact .inr (.inr ⟨'\\' :: c :: body, hb, rfl⟩)
  | case3 c cs hc ih =>
    by_cases hq : c = '\x22'
    · subst hq
      exact .inr (.inl ⟨[], cs, rfl, rfl⟩)
    by_cases hs : c = '\\'
    · subst hs
      cases cs with
      | nil => exact .inr (.inr ⟨[], rfl, rfl⟩)
      | cons d cs => exact absurd rfl (hc d cs rfl)
    have hcons {ds : List Char} (h : isStringBody ds = true) : isStringBody (c :: ds) = true := by
      simp [isStringBody, hq, hs, h]
    rcases ih with hb | ⟨body, tail, hb, rfl⟩ | ⟨body, hb, rfl⟩
    · exact .inl (by simp [hq, hs, hb])
    · exact .inr (.inl ⟨c :: body, tail, hcons hb, rfl⟩)
    · exact .inr (.inr ⟨c :: body, hcons hb, rfl⟩)

end Text

namespace Source

theorem Reader.readFirst_of_rest {text : String} {f : Form} {fs : List Form} {fault : Option Fault}
    (h : (Reader.start text "string").rest = (f :: fs, fault)) : readFirst text = .ok f := by
  rw [Reader.rest_eq_onward rfl] at h
  rw [readFirst, Reader.next, if_neg (by simp [Reader.start])]
  rcases ha : (Reader.start text "string").advance with ⟨_ | (reason | g), r⟩ <;> rw [ha] at h
  · cases h
  · cases h
  · obtain rfl : g = f := (List.cons.inj (congrArg Prod.fst h)).1
    rfl

theorem Reader.readFirst_of_fault {text : String} {fault : Fault}
    (h : (Reader.start text "string").rest = ([], some fault)) : readFirst text = .error fault := by
  rw [Reader.rest_eq_onward rfl] at h
  rw [readFirst, Reader.next, if_neg (by simp [Reader.start])]
  rcases ha : (Reader.start text "string").advance with ⟨_ | (reason | g), r⟩ <;> rw [ha] at h
  · cases h
  · cases h
    rfl
  · cases h

theorem rest_start_quoted (body name : String) :
    (Reader.start (Text.quoted body) name).rest =
      ((Context.outer name).reader .string [] (body.toList ++ ['\x22']) 1).rest := by
  have hs : Reader.start (Text.quoted body) name =
      (Context.outer name).idle ('\x22' :: (body.toList ++ ['\x22'])) 1 :=
    congrArg (fun cs => (Context.outer name).idle cs 1) (Text.toList_quoted body)
  have hopen : ((Context.outer name).idle (body.toList ++ ['\x22']) 1).step '\x22' =
      .more ((Context.outer name).reader .string [] (body.toList ++ ['\x22']) 1) := rfl
  rw [hs]
  exact Context.rest_more hopen

theorem rest_closed {s body : String} {tail : List Char} (hb : Text.isStringBody body.toList = true)
    (hs : s.toList ++ ['\x22'] = body.toList ++ '\x22' :: tail) (name : String) :
    (Reader.start (Text.quoted s) name).rest =
      (Context.outer name).accept (.atom (.str body)) tail (lineAfter 1 (body.toList ++ ['\x22'])) := by
  rw [rest_start_quoted, hs, Context.rest_stringBody hb, lineAfter_append]
  refine Context.rest_emit ?_
  simp [Reader.step, Context.reader, Reader.inString, Reader.emitString, Reader.text, Reader.cleared,
    Context.idle]

theorem read_quoted {body : String} (hb : Text.isStringBody body.toList = true) (name : String) :
    read (Text.quoted body) name = ⟨[.atom (.str body)], none⟩ := by
  have hr : (Reader.start (Text.quoted body) name).rest = ([.atom (.str body)], none) := by
    rw [rest_closed hb rfl]
    exact congrArg (fun p => (Form.atom (.str body) :: p.1, p.2))
      (Context.rest_idle_nil (Context.outer name) _)
  simp [read, hr]

theorem readFirst_closed {s body : String} {tail : List Char} (hb : Text.isStringBody body.toList = true)
    (hs : s.toList ++ ['\x22'] = body.toList ++ '\x22' :: tail) :
    readFirst (Text.quoted s) = .ok (.atom (.str body)) :=
  Reader.readFirst_of_rest (rest_closed hb hs "string")

theorem readFirst_unclosed {s : String} {body : List Char} (hb : Text.isStringBody body = true)
    (hs : s.toList = body ++ ['\\']) :
    readFirst (Text.quoted s) = .error ⟨lineAfter 1 s.toList, "string", .unterminatedString⟩ := by
  have hbody : Text.isStringBody (body ++ ['\\', '\x22']) = true :=
    Reader.isStringBody_append hb ['\\', '\x22'] rfl
  have htext : s.toList ++ ['\x22'] = body ++ ['\\', '\x22'] ++ [] := by simp [hs]
  have hline : lineAfter 1 (body ++ ['\\', '\x22']) = lineAfter 1 s.toList := by
    rw [hs, lineAfter_append, lineAfter_append]
    rfl
  refine Reader.readFirst_of_fault ?_
  rw [rest_start_quoted, htext, Context.rest_stringBody hbody, hline, Reader.rest_of_end rfl rfl]
  rfl

end Source
end LazyLisp
