import LazyLisp.Proofs.Source.StringLiteral
import LazyLisp.Proofs.Standard

namespace LazyLisp

def Writes (w : World) (style : Style) (v : Value) (text : String) : Prop :=
  Eventually (fun l => (Kernel.withFuel l).render style v w) (.value text w)

theorem writes_atom (w : World) (style : Style) (a : Atom) :
    Writes w style (.atom a) (String.ofList (a.text style)) := by
  refine Eventually.shift_iff.mp (.of_forall (n := 0) fun l _ => ?_)
  rfl

theorem eventually_renderAll_atom (w : World) (style : Style) (separator : String) (a : Atom) :
    Eventually (fun l => (Kernel.withFuel l).renderAll style separator [.atom a] w)
      (.value (String.ofList (a.text style)) w) := by
  refine Eventually.shift_iff.mp (.of_forall (n := 0) fun l _ => ?_)
  change Outcome.value (String.ofList (separator.toList.intercalate [a.text style])) w = _
  rw [List.intercalate_singleton]

theorem calls_str (w : World) (body : String) :
    Calls w (.primitive .str) [.str body] (.value (.str (Text.interpreted body)) w) :=
  (calls_primitive_iff rfl).mpr
    ((Eventually.bind_iff (eventually_renderAll_atom w .direct "" (.str body))).mpr (.pure _ w))

theorem prints_interpreted {body text : String} (h : Text.interpreted body = text) (w : World) :
    Writes w .direct (.str body) text ∧ Calls w (.primitive .str) [.str body] (.value (.str text) w) := by
  subst h
  exact ⟨writes_atom w .direct (.str body), calls_str w body⟩

theorem calls_prStr (w : World) (s : String) :
    Calls w (.primitive .prStr) [.str s] (.value (.str (Text.quoted s)) w) :=
  (calls_primitive_iff rfl).mpr
    ((Eventually.bind_iff (eventually_renderAll_atom w .readable " " (.str s))).mpr (.pure _ w))

theorem calls_readString {w : World} {text : String} {f : Form} (h : Source.readFirst text = .ok f) :
    Calls w (.primitive .readString) [.str text] (.value f.toValue w) := by
  have ht : Eval.requireString (.str text) w = .value text w := rfl
  have hr : Kernel.readString (.str text) w = .value f.toValue w := by
    rw [Kernel.readString, Eval.bind_of_value ht, h]
    rfl
  exact (calls_primitive_iff rfl).mpr (.of_forall (n := 0) fun _ _ => hr)

theorem calls_readString_fault {w : World} {text : String} {fault : Source.Fault}
    (h : Source.readFirst text = .error fault) :
    Calls w (.primitive .readString) [.str text] (.failure (.read fault) w) := by
  have ht : Eval.requireString (.str text) w = .value text w := rfl
  have hr : Kernel.readString (.str text) w = .failure (.read fault) w := by
    rw [Kernel.readString, Eval.bind_of_value ht, h]
    rfl
  exact (calls_primitive_iff rfl).mpr ⟨nofun, 0, fun _ _ => hr⟩

theorem Evals.str (w : World) (body : String) : Evals w (.str body) (.value (.str body) w) :=
  .self (fun _ => rfl) w

theorem Evals.call_singleton {w u : World} {name : String} {p : Primitive} {form v : Value} {r : Outcome Value}
    (hw : w.Means name (.primitive p)) (h : Evals w form (.value v u)) (hc : Calls u (.primitive p) [v] r) :
    Evals w (callForm name [form]) r :=
  .function hw (.cons h (.nil u)) rfl hc

/-- Every text has a literal. It is read as one string, and printing that string gives the text. A string
without a backslash is printed as it is. -/
theorem literal_of_text (text : String) :
    (∀ c d, Text.escapeLetter? c = some d ↔ Text.escaped? d = some c) ∧
    (∀ name, Source.read (Text.quoted (Text.escapedBody text)) name =
      ⟨[.atom (.str (Text.escapedBody text))], none⟩) ∧
    (∀ w, Writes w .direct (.str (Text.escapedBody text)) text ∧
      Calls w (.primitive .str) [.str (Text.escapedBody text)] (.value (.str text) w)) ∧
    ∀ body : String, '\\' ∉ body.toList → ∀ w, Writes w .direct (.str body) body ∧
      Calls w (.primitive .str) [.str body] (.value (.str body) w) := by
  exact ⟨fun _ _ => Text.escapeLetter?_eq_some_iff,
    Source.read_quoted (Text.isStringBody_escapedBody text),
    prints_interpreted (Text.interpreted_escapedBody text),
    fun body hb => prints_interpreted (Text.interpreted_of_not_mem hb)⟩

theorem literal_of_text_mixed :
    Source.read (Text.quoted "\\\"\\n") "file" = ⟨[.atom (.str "\\\"\\n")], none⟩ ∧
      Calls World.standard (.primitive .str) [.str "\\\"\\n"] (.value (.str "\"\n") World.standard) ∧
      '\\' ∉ "a\"b".toList ∧ Writes World.standard .direct (.str "a\"b") "a\"b" := by
  have hb : '\\' ∉ "a\"b".toList := by decide
  have he : Text.escapedBody "\"\n" = "\\\"\\n" := by decide
  obtain ⟨-, hread, hprint, hplain⟩ := literal_of_text "\"\n"
  rw [he] at hread hprint
  exact ⟨hread "file", (hprint World.standard).2, hb, (hplain "a\"b" hb World.standard).1⟩

/-- What reading makes of a string that is put between quotes: all of it, what comes before its first quote,
or a literal without an end. -/
inductive ReadBack (s : String) (w : World) : Outcome Value → Prop
  | whole : Text.isStringBody s.toList = true → ReadBack s w (.value (.str s) w)
  | cut {body : String} {tail : List Char} : Text.isStringBody body.toList = true →
      s.toList = body.toList ++ '\x22' :: tail → ReadBack s w (.value (.str body) w)
  | unclosed {body : List Char} : Text.isStringBody body = true → s.toList = body ++ ['\\'] →
      ReadBack s w (.failure (.read ⟨Source.lineAfter 1 s.toList, "string", .unterminatedString⟩) w)

namespace ReadBack

variable {s : String} {w : World} {r : Outcome Value}

theorem exists_outcome (s : String) (w : World) : ∃ r, ReadBack s w r := by
  rcases Text.stringBody_cases s.toList with hb | ⟨body, tail, hb, hs⟩ | ⟨body, hb, hs⟩
  · exact ⟨_, .whole hb⟩
  · rw [← String.toList_ofList (l := body)] at hb hs
    exact ⟨_, .cut hb hs⟩
  · exact ⟨_, .unclosed hb hs⟩

theorem calls (h : ReadBack s w r) : Calls w (.primitive .readString) [.str (Text.quoted s)] r := by
  cases h with
  | whole hb => exact calls_readString (Source.readFirst_closed hb rfl)
  | @cut body tail hb hs =>
    have htail : s.toList ++ ['\x22'] = body.toList ++ '\x22' :: (tail ++ ['\x22']) := by simp [hs]
    exact calls_readString (Source.readFirst_closed hb htail)
  | unclosed hb hs => exact calls_readString_fault (Source.readFirst_unclosed hb hs)

theorem value_self_iff {u : World} :
    ReadBack s w (.value (.str s) u) ↔ Text.isStringBody s.toList = true ∧ u = w := by
  constructor
  · intro h
    cases h with
    | whole hb => exact ⟨hb, rfl⟩
    | cut _ hs =>
      have hlength := congrArg List.length hs
      simp only [List.length_append, List.length_cons] at hlength
      omega
  · rintro ⟨hb, rfl⟩
    exact .whole hb

end ReadBack

theorem Evals.printed_and_read_iff {w u : World} {s : String} {form : Value}
    (hr : w.Means "read-string" (.primitive .readString)) (hp : w.Means "pr-str" (.primitive .prStr))
    (h : Evals w form (.value (.str s) u)) {r : Outcome Value} :
    Evals w (callForm "read-string" [callForm "pr-str" [form]]) r ↔ ReadBack s u r := by
  have hprinted : Evals w (callForm "pr-str" [form]) (.value (.str (Text.quoted s)) u) :=
    .call_singleton hp h (calls_prStr u s)
  have hread {r : Outcome Value} (hb : ReadBack s u r) :
      Evals w (callForm "read-string" [callForm "pr-str" [form]]) r := .call_singleton hr hprinted hb.calls
  refine ⟨fun he => ?_, hread⟩
  obtain ⟨r', hb⟩ := ReadBack.exists_outcome s u
  cases he.unique (hread hb)
  exact hb

/-- Every string can be computed. If it is printed readably and read again, it comes back exactly if it
could be the body of a literal. -/
theorem printed_string_read_back (s : String) :
    (∀ w : World, w.Means "str" (.primitive .str) →
      Evals w (callForm "str" [.str (Text.escapedBody s)]) (.value (.str s) w)) ∧
    ∀ (w u : World) (form : Value), w.Means "read-string" (.primitive .readString) →
      w.Means "pr-str" (.primitive .prStr) → Evals w form (.value (.str s) u) →
      (∀ r, Evals w (callForm "read-string" [callForm "pr-str" [form]]) r ↔ ReadBack s u r) ∧
      ((∃ u', Evals w (callForm "read-string" [callForm "pr-str" [form]]) (.value (.str s) u')) ↔
        Text.isStringBody s.toList = true) := by
  refine ⟨fun w hw => ?_, fun w u form hr hp h => ⟨fun r => Evals.printed_and_read_iff hr hp h, ?_⟩⟩
  · exact .call_singleton hw (.str w _) (prints_interpreted (Text.interpreted_escapedBody s) w).2
  · simp only [Evals.printed_and_read_iff hr hp h, ReadBack.value_self_iff, exists_and_left, exists_eq,
      and_true]

def quotedForm : Value := callForm "pr-str" [.str "a"]

theorem evals_quotedForm : Evals World.standard quotedForm (.value (.str "\"a\"") World.standard) := by
  have hs : World.standard.Sees ["pr-str"] := World.sees_standard ["pr-str"]
  exact .call_singleton (hs.primitive .prStr (by decide)) (.str _ "a") (calls_prStr _ "a")

theorem printed_string_read_back_literal :
    Evals World.standard (.str "a") (.value (.str "a") World.standard) ∧ Text.isStringBody "a".toList = true ∧
      ∃ u, Evals World.standard (callForm "read-string" [callForm "pr-str" [.str "a"]]) (.value (.str "a") u) := by
  have hs := World.sees_standard ["read-string", "pr-str"]
  have ha : Evals World.standard (.str "a") (.value (.str "a") World.standard) := .str World.standard "a"
  have hbody : Text.isStringBody "a".toList = true := by decide
  exact ⟨ha, hbody, ((printed_string_read_back "a").2 _ _ _ (hs.primitive .readString (by decide))
    (hs.primitive .prStr (by decide)) ha).2.mpr hbody⟩

theorem printed_string_not_read_back :
    Evals World.standard quotedForm (.value (.str "\"a\"") World.standard) ∧
      Evals World.standard (callForm "read-string" [callForm "pr-str" [quotedForm]])
        (.value (.str "") World.standard) ∧
      ¬ ∃ u, Evals World.standard (callForm "read-string" [callForm "pr-str" [quotedForm]])
        (.value (.str "\"a\"") u) := by
  have hs := World.sees_standard ["read-string", "pr-str"]
  have hback {r : Outcome Value} : _ ↔ ReadBack "\"a\"" World.standard r :=
    Evals.printed_and_read_iff (hs.primitive .readString (by decide)) (hs.primitive .prStr (by decide))
      evals_quotedForm
  have hcut : "\"a\"".toList = "".toList ++ '\x22' :: ['a', '\x22'] := rfl
  refine ⟨evals_quotedForm, hback.mpr (.cut rfl hcut), ?_⟩
  rintro ⟨u, hu⟩
  exact absurd (ReadBack.value_self_iff.mp (hback.mp hu)).1 (by decide)

end LazyLisp
