import LazyLisp.Proofs.Source.Spelling
import LazyLisp.Proofs.Source.Tree

namespace LazyLisp.Source

inductive Layout : List Char → Prop
  | nil : Layout []
  | blank {c : Char} {cs : List Char} : Text.isBlank c = true → Layout cs → Layout (c :: cs)
  | comment {body cs : List Char} {c : Char} : (∀ d ∈ body, d ≠ '\n' ∧ d ≠ '\x0d') →
      c = '\n' ∨ c = '\x0d' → Layout cs → Layout (';' :: (body ++ c :: cs))

namespace Layout

variable {cs ds : List Char}

theorem append (h : Layout cs) (h' : Layout ds) : Layout (cs ++ ds) := by
  induction h with
  | nil => exact h'
  | blank hc _ ih => exact .blank hc ih
  | comment hb hc _ ih => simpa using Layout.comment hb hc ih

theorem mem_boundaries_of_isBlank {c : Char} (h : Text.isBlank c = true) : c ∈ Text.boundaries := by
  unfold Text.isBlank at h
  split at h
  case h_8 => cases h
  all_goals decide

theorem atBoundary (h : Layout cs) (hd : cs = [] → Text.AtBoundary ds) :
    Text.AtBoundary (cs ++ ds) := by
  cases h with
  | nil => exact hd rfl
  | blank hc _ => exact Text.atBoundary_cons (mem_boundaries_of_isBlank hc) _
  | comment _ _ _ => exact Text.atBoundary_cons (by decide) _

end Layout

namespace Context

variable {x : Context} {cs ds gap : List Char} {l : Nat} {c : Char}

theorem rest_commentBody {body : List Char} (hb : ∀ d ∈ body, d ≠ '\n' ∧ d ≠ '\x0d') (l : Nat) :
    (x.reader .comment [] (body ++ cs) l).rest = (x.reader .comment [] cs (lineAfter l body)).rest := by
  induction body generalizing l with
  | nil => rfl
  | cons d body ih =>
    obtain ⟨hn, hr⟩ := hb d (by simp)
    rw [List.cons_append, lineAfter_cons, ← ih fun e he => hb e (by simp [he])]
    refine rest_more ?_
    change Reader.inComment _ d = _
    rw [Reader.inComment, if_neg hn, if_neg hr]

theorem rest_commentEnd (hc : c = '\n' ∨ c = '\x0d') :
    (x.reader .comment [] (c :: cs) l).rest = (x.idle cs (nextLine l c)).rest := by
  rcases hc with rfl | rfl
  · exact rest_more rfl
  · -- A line feed after the carriage return is taken along, as it would be skipped later.
    by_cases hn : ∃ cs', cs = '\n' :: cs'
    · obtain ⟨cs', rfl⟩ := hn
      rw [rest_blank rfl]
      exact rest_more rfl
    · refine rest_more ?_
      change Reader.inComment _ '\x0d' = _
      rw [Reader.inComment, if_neg (by decide), if_pos rfl]
      split
      · next s ht =>
        cases cs with
        | nil => cases ht
        | cons d cs =>
          cases ht
          exact absurd ⟨cs, rfl⟩ hn
      · rfl

theorem rest_layout (h : Layout gap) (l : Nat) :
    (x.idle (gap ++ cs) l).rest = (x.idle cs (lineAfter l gap)).rest := by
  induction h generalizing l with
  | nil => rfl
  | blank hc _ ih => rw [List.cons_append, rest_blank hc, ih, lineAfter_cons]
  | @comment body gap c hb hc _ ih =>
    have hopen : (x.idle (';' :: (body ++ c :: (gap ++ cs))) l).rest =
        (x.reader .comment [] (body ++ c :: (gap ++ cs)) l).rest := rest_more rfl
    have htext : ';' :: (body ++ c :: gap) ++ cs = ';' :: (body ++ c :: (gap ++ cs)) := by simp
    rw [htext, hopen, rest_commentBody hb, rest_commentEnd hc, ih]
    simp [nextLine]

def quoted (x : Context) : Context :=
  match x.stack with
  | [] => { x with quotes := x.quotes + 1 }
  | o :: stack => { x with stack := { o with quotes := o.quotes + 1 } :: stack }

theorem rest_quote : (x.idle ('\x27' :: cs) l).rest = (x.quoted.idle cs l).rest := by
  obtain ⟨name, stack, quotes⟩ := x
  cases stack <;> exact rest_more rfl

theorem rest_closing (b : Bracket) :
    (x.idle (b.closer :: cs) l).rest =
      Reader.onward (Reader.outcome ((x.idle cs l).closeBracket b.closer)) := by
  rw [idle, rest_eq_onward_outcome]
  cases b <;> rfl

end Context

def Token.Spells : Token → List Char → Prop
  | .opening b, w => w = [b.opener]
  | .closing b, w => w = [b.closer]
  | .quote, w => w = ['\x27']
  | .atom a, w => a.1.Spells w

def Token.isAtom : Token → Bool
  | .atom _ => true
  | _ => false

/-- The texts of tokens with layout around them, which is needed after an atom unless a closing bracket
follows. -/
inductive Laid : List Token → List Char → Prop
  | nil {gap : List Char} : Layout gap → Laid [] gap
  | cons {t : Token} {ts : List Token} {gap w cs : List Char} : Layout gap → t.Spells w →
      (t.isAtom = true → Text.AtBoundary cs) → Laid ts cs → Laid (t :: ts) (gap ++ (w ++ cs))

namespace Laid

variable {t : Token} {ts us : List Token} {gap cs ds : List Char}

theorem next {c : Char} (hw : t.Spells [c]) (ht : t.isAtom = false) (h : Laid ts cs) :
    Laid (t :: ts) (c :: cs) :=
  .cons .nil hw (fun ha => by rw [ht] at ha; cases ha) h

theorem after_layout (hg : Layout gap) (h : Laid ts cs) : Laid ts (gap ++ cs) := by
  cases h with
  | nil hg' => exact .nil (hg.append hg')
  | cons hg' hw hb h =>
    rw [← List.append_assoc]
    exact .cons (hg.append hg') hw hb h

theorem before_layout (h : Laid ts cs) (hg : Layout gap) : Laid ts (cs ++ gap) := by
  induction h with
  | nil hg' => exact .nil (hg'.append hg)
  | @cons t ts gap' w cs hg' hw hb _ ih =>
    rw [List.append_assoc, List.append_assoc]
    refine .cons hg' hw (fun ht => ?_) ih
    cases cs with
    | nil =>
      have hend : Text.AtBoundary (gap ++ []) := hg.atBoundary fun _ => nofun
      simpa using hend
    | cons c cs => exact hb ht

end Laid

def Level.openForm (i : Level) : OpenForm := ⟨i.bracket, (Tree.forms i.trees).reverse, i.quotes⟩

namespace Outline

variable {o o' : Outline} {name : String} {cs : List Char} {l : Nat}

def context (o : Outline) (name : String) : Context := ⟨name, o.levels.map Level.openForm, o.quotes⟩

def reading (o : Outline) (name : String) (cs : List Char) (l : Nat) : List Form × Option Fault :=
  let rest := ((o.context name).idle cs l).rest
  (Tree.forms o.done ++ rest.1, rest.2)

theorem forms_append (ts us : List Tree) : Tree.forms (ts ++ us) = Tree.forms ts ++ Tree.forms us := by
  simp [Tree.forms_eq_map]

theorem accept_eq_reading_put (o : Outline) (t : Tree) (name : String) (cs : List Char) (l : Nat) :
    (Tree.forms o.done ++ ((o.context name).accept t.form cs l).1,
      ((o.context name).accept t.form cs l).2) = (o.put t).reading name cs l := by
  obtain ⟨done, quotes, levels⟩ := o
  cases levels with
  | nil =>
    simp only [put, reading, forms_append, Tree.forms, List.append_assoc, List.singleton_append,
      Tree.form_quotedTimes]
    rfl
  | cons i outer =>
    simp only [put, reading, context, List.map_cons, Level.openForm, forms_append, Tree.forms,
      List.reverse_append, Tree.form_quotedTimes]
    rfl

theorem reading_close {b : Bracket} (h : o.close b = .ok o') :
    o.reading name (b.closer :: cs) l = o'.reading name cs l := by
  obtain ⟨ts, outer, t, hl, ht, rfl⟩ := close_ok h
  obtain ⟨done, quotes, levels⟩ := o
  obtain rfl : levels = ⟨b, ts, 0⟩ :: outer := hl
  rw [← accept_eq_reading_put]
  have hform : OpenForm.close? ⟨b, (Tree.forms ts).reverse, 0⟩ = some t.form := by
    rw [Tree.close?_forms, ht]
    rfl
  have hline : nextLine l b.closer = l := by cases b <;> rfl
  have hclose : ((((⟨done, quotes, outer⟩ : Outline).context name).within b (Tree.forms ts).reverse).idle
      (b.closer :: cs) l).rest = _ := Context.rest_close hform
  rw [hline] at hclose
  rw [← hclose]
  rfl

theorem closer_inj {b b' : Bracket} (h : b.closer = b'.closer) : b = b' := by
  cases b <;> cases b' <;> first | rfl | exact absurd h (by decide)

theorem closeBracket_of_error {b : Bracket} {reason : Reason} (h : o.close b = .error reason)
    (name : String) (cs : List Char) (l : Nat) :
    ((o.context name).idle cs l).closeBracket b.closer = .fault reason ((o.context name).idle cs l) := by
  obtain ⟨done, quotes, levels⟩ := o
  cases levels with
  | nil =>
    cases h
    rfl
  | cons i outer =>
    obtain ⟨b', ts, q⟩ := i
    simp only [close] at h
    simp only [Reader.closeBracket, context, Context.idle, Context.reader, List.map_cons, Level.openForm]
    split at h
    · next hb =>
      cases h
      rw [if_pos fun hc => hb (closer_inj hc)]
    · next hb =>
      obtain rfl : b' = b := by simpa using hb
      rw [if_neg (by simp)]
      split at h
      · next hq =>
        cases h
        rw [if_pos hq]
      · next hq =>
        obtain rfl : q = 0 := by omega
        rw [if_neg hq, Tree.close?_forms]
        split at h
        · cases h
        · next hc =>
          cases h
          rw [hc]
          rfl

theorem reading_close_error {b : Bracket} {reason : Reason} (h : o.close b = .error reason) :
    o.reading name (b.closer :: cs) l = (Tree.forms o.done, some ⟨l, name, reason⟩) := by
  rw [reading, Context.rest_closing, closeBracket_of_error h]
  simp only [Reader.outcome, Reader.onward, List.append_nil]
  rfl

theorem reading_layout {gap : List Char} (hg : Layout gap) :
    o.reading name (gap ++ cs) l = o.reading name cs (lineAfter l gap) := by
  rw [reading, Context.rest_layout hg]
  rfl

theorem reading_step {t : Token} {w : List Char} (hw : t.Spells w)
    (hb : t.isAtom = true → Text.AtBoundary cs) (h : o.step t = .ok o') (l : Nat) :
    o.reading name (w ++ cs) l = o'.reading name cs (lineAfter l w) := by
  cases t with
  | opening b =>
    obtain rfl : w = [b.opener] := hw
    cases h
    rw [reading, List.singleton_append, Context.rest_open]
    rfl
  | closing b =>
    obtain rfl : w = [b.closer] := hw
    rw [List.singleton_append, reading_close h]
    cases b <;> rfl
  | quote =>
    obtain rfl : w = ['\x27'] := hw
    cases h
    obtain ⟨done, quotes, levels⟩ := o
    rw [reading, List.singleton_append, Context.rest_quote]
    cases levels <;> rfl
  | atom a =>
    cases h
    rw [← accept_eq_reading_put, reading, Context.rest_spelling hw (hb rfl)]
    rfl

theorem reading_run (name : String) {pre post : List Token} (h : Laid (pre ++ post) cs)
    (hrun : o.run pre = .ok o') :
    ∃ before after, cs = before ++ after ∧ Laid pre before ∧ Laid post after ∧
      ∀ l, o.reading name cs l = o'.reading name after (lineAfter l before) := by
  induction pre generalizing o cs with
  | nil =>
    cases hrun
    exact ⟨[], cs, rfl, .nil .nil, h, fun _ => rfl⟩
  | cons t pre ih =>
    obtain ⟨o₁, ht, hrun⟩ := run_cons_ok hrun
    cases h with
    | @cons _ _ gap w cs hg hw hb h =>
      obtain ⟨before, after, rfl, hl, hl', hread⟩ := ih h hrun
      refine ⟨gap ++ (w ++ before), after, by simp, .cons hg hw (fun hta => ?_) hl, hl', fun l => ?_⟩
      · cases before with
        | nil => nofun
        | cons c before => exact hb hta
      · rw [reading_layout hg, reading_step hw hb ht, hread]
        simp

theorem reading_end {gap : List Char} (hg : Layout gap) (l : Nat) :
    o.reading name gap l = (Tree.forms o.done,
      ((o.context name).idle [] l).complaint?.map fun reason => ⟨lineAfter l gap, name, reason⟩) := by
  have htext : gap = gap ++ [] := by simp
  rw [htext, reading_layout hg, reading, Context.rest_idle_nil]
  simp only [List.append_nil]
  rfl

theorem read_eq_reading (cs : List Char) (name : String) :
    read (String.ofList cs) name = ⟨(start.reading name cs 1).1, (start.reading name cs 1).2⟩ := by
  have hstart : Reader.start (String.ofList cs) name = (start.context name).idle cs 1 := by
    rw [Reader.start, String.toList_ofList]
    rfl
  rw [read, hstart]
  rfl

end Outline

structure Part where
  gap : List Char
  tree : Tree
  text : List Char

def Part.spread (ps : List Part) (trail : List Char) : List Char :=
  ps.flatMap (fun p => p.gap ++ p.text) ++ trail

/-- The renderings of a tree: some layout between the items of a literal, and any layout, also none,
after a quote mark, after an opening bracket and before a closing one. -/
inductive Renders : Tree → List Char → Prop
  | atom {a : ReadableAtom} {w : List Char} : a.1.Spells w → Renders (.atom a) w
  | quote {t : Tree} {gap cs : List Char} : Layout gap → Renders t cs →
      Renders (.quote t) ('\x27' :: (gap ++ cs))
  | literal {b : Bracket} {ps : List Part} {trail : List Char} {t : Tree} :
      Tree.close? b (ps.map Part.tree) = some t → (∀ p ∈ ps, Layout p.gap) →
      (∀ p ∈ ps.tail, p.gap ≠ []) → Layout trail → (∀ p ∈ ps, Renders p.tree p.text) →
      Renders t (b.opener :: (Part.spread ps trail ++ [b.closer]))

def Precedes (t : Tree) (cs : List Char) : Prop :=
  ∀ us ds, Laid us ds → Text.AtBoundary ds → Laid (t.tokens ++ us) (cs ++ ds)

theorem laid_spread {ps : List Part} {trail ds : List Char} {us : List Token}
    (hp : ∀ p ∈ ps, Precedes p.tree p.text) (hg : ∀ p ∈ ps, Layout p.gap)
    (hne : ∀ p ∈ ps.tail, p.gap ≠ []) (ht : Layout trail) (hu : Laid us ds) (hd : Text.AtBoundary ds) :
    Laid ((ps.map Part.tree).flatMap Tree.tokens ++ us) (Part.spread ps trail ++ ds) := by
  induction ps with
  | nil => exact hu.after_layout ht
  | cons p ps ih =>
    have hrest := ih (fun q hq => hp q (by simp [hq])) (fun q hq => hg q (by simp [hq]))
      fun q hq => hne q (List.mem_of_mem_tail hq)
    have hb : Text.AtBoundary (Part.spread ps trail ++ ds) := by
      cases ps with
      | nil => exact ht.atBoundary fun _ => hd
      | cons q ps =>
        have hq : Text.AtBoundary (q.gap ++ (q.text ++ (Part.spread ps trail ++ ds))) :=
          (hg q (by simp)).atBoundary fun hnil => absurd hnil (hne q (by simp))
        simpa [Part.spread] using hq
    have hlaid := (hp p (by simp) _ _ hrest hb).after_layout (hg p (by simp))
    simpa [Part.spread] using hlaid

theorem Renders.precedes {t : Tree} {cs : List Char} (h : Renders t cs) : Precedes t cs := by
  induction h with
  | atom ha =>
    intro us ds hu hd
    exact .cons .nil ha (fun _ => hd) hu
  | @quote t gap cs hg _ ih =>
    intro us ds hu hd
    have hrest := (ih us ds hu hd).after_layout hg
    rw [← List.append_assoc] at hrest
    exact .next rfl rfl hrest
  | @literal b ps trail t hc hg hne ht _ ih =>
    intro us ds hu hd
    have hclose : Laid (.closing b :: us) (b.closer :: ds) := .next rfl rfl hu
    have hb : Text.AtBoundary (b.closer :: ds) :=
      Text.atBoundary_cons (Context.closer_mem_boundaries b) ds
    have hrest := laid_spread ih hg hne ht hclose hb
    have hopen : Laid (.opening b :: _) (b.opener :: _) := .next rfl rfl hrest
    rw [Tree.tokens_of_close? hc]
    simpa using hopen

/-- Every layout of a tree is read as the form that the tree stands for, and nothing else is. -/
theorem read_rendering {t : Tree} {lead text trail : List Char} (hl : Layout lead) (h : Renders t text)
    (ht : Layout trail) (name : String) :
    read (String.ofList (lead ++ (text ++ trail))) name = ⟨[t.form], none⟩ := by
  have hend : Text.AtBoundary (trail ++ []) := ht.atBoundary fun _ => nofun
  have hlaid := (h.precedes [] trail (.nil ht) (by simpa using hend)).after_layout hl
  have hrun : Outline.start.run t.tokens = .ok ⟨[t], 0, []⟩ := by
    have hr := Outline.run_tokens t .start []
    rwa [List.append_nil] at hr
  obtain ⟨before, after, -, -, hafter, hread⟩ := Outline.reading_run name hlaid hrun
  cases hafter with
  | nil hg =>
    rw [Outline.read_eq_reading, hread, Outline.reading_end hg]
    rfl

def symbolA : ReadableAtom := ⟨.symbol "a", .inr ⟨Text.isToken_of_all rfl rfl, by decide⟩⟩

theorem isKeyword_k : Text.IsKeyword ([':'] ++ ['k']) :=
  .bare (.inl rfl) ⟨List.cons_ne_nil _ _, List.forall_mem_singleton.mpr rfl⟩

def keywordK : ReadableAtom := ⟨.keyword ":k", isKeyword_k⟩

def integer (i : Int64) : ReadableAtom := ⟨.int i, trivial⟩

def repeatedKeyTree : Tree :=
  .map [(.atom keywordK, .atom (integer 1)), (.atom keywordK, .atom (integer 2))]

def nestedTree : Tree := .quote (.list [.atom symbolA, .quote (.quote (.vector [])), repeatedKeyTree])

def repeatedKeyText : List Char := ['\x7b', ':', 'k', ' ', '1', ',', ':', 'k', '\n', '2', '\x7d']

def nestedText : List Char :=
  ['\x27', '(', ' ', 'a', ';', 'c', '\x0d', '\x27', ' ', '\x27', '[', ']', '\t'] ++
    (repeatedKeyText ++ [')'])

theorem renders_repeatedKeyTree : Renders repeatedKeyTree repeatedKeyText := by
  have hk : Renders (.atom keywordK) [':', 'k'] := .atom (.written keywordK.2)
  have hone : Renders (.atom (integer 1)) ['1'] := .atom (.decimal false (by simp) rfl (by decide))
  have htwo : Renders (.atom (integer 2)) ['2'] := .atom (.decimal false (by simp) rfl (by decide))
  refine @Renders.literal .curly
    [⟨[], .atom keywordK, [':', 'k']⟩, ⟨[' '], .atom (integer 1), ['1']⟩,
      ⟨[','], .atom keywordK, [':', 'k']⟩, ⟨['\n'], .atom (integer 2), ['2']⟩]
    [] repeatedKeyTree rfl ?_ (by simp) .nil ?_
  · simpa using ⟨.nil, .blank rfl .nil, .blank rfl .nil, .blank rfl .nil⟩
  · simpa using ⟨hk, hone, hk, htwo⟩

theorem read_rendering_nested : Renders nestedTree nestedText ∧
    read (String.ofList nestedText) "a" =
      ⟨[Form.quoted (.list [.symbol "a", Form.quoted (Form.quoted (.vector [])),
        .map [(.atom (.keyword ":k"), .atom (.int 2))]])], none⟩ := by
  have hvector : Renders (.vector []) ['[', ']'] :=
    @Renders.literal .square [] [] _ rfl nofun nofun .nil nofun
  have hquotes : Renders (.quote (.quote (.vector []))) ['\x27', ' ', '\x27', '[', ']'] :=
    .quote (.blank rfl .nil) (.quote .nil hvector)
  have hgap : Layout [';', 'c', '\x0d'] := @Layout.comment ['c'] [] '\x0d' (by simp) (.inr rfl) .nil
  have hlist := @Renders.literal .round
    [⟨[' '], .atom symbolA, ['a']⟩,
      ⟨[';', 'c', '\x0d'], .quote (.quote (.vector [])), ['\x27', ' ', '\x27', '[', ']']⟩,
      ⟨['\t'], repeatedKeyTree, repeatedKeyText⟩]
    [] _ rfl (by simpa using ⟨.blank rfl .nil, hgap, .blank rfl .nil⟩) (by simp) .nil
    (by simpa using ⟨.atom (.written symbolA.2), hquotes, renders_repeatedKeyTree⟩)
  have hquote := Renders.quote .nil hlist
  have hread := read_rendering .nil hquote .nil "a"
  rw [List.nil_append, List.append_nil] at hread
  exact ⟨hquote, hread⟩

end LazyLisp.Source
