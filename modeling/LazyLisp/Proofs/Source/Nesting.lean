import LazyLisp.Proofs.Source.Layout

namespace LazyLisp.Source

def IsForms (ts : List Token) : Prop := ∃ trees : List Tree, ts = trees.flatMap Tree.tokens

def Repairable (ts : List Token) : Prop := ∃ more, IsForms (ts ++ more)

/-- All forms at the front that are complete. -/
def Outermost (ts : List Token) (done : List Tree) : Prop :=
  (∃ rest, ts = done.flatMap Tree.tokens ++ rest) ∧
    ∀ trees rest, ts = trees.flatMap Tree.tokens ++ rest → trees <+: done

def Outside (ts : List Token) (trees : List Tree) (quotes : Nat) : Prop :=
  ts = trees.flatMap Tree.tokens ++ List.replicate quotes .quote

def Innermost (ts : List Token) (b : Bracket) (trees : List Tree) (quotes : Nat) : Prop :=
  ∃ outer, ts = outer ++ .opening b :: (trees.flatMap Tree.tokens ++ List.replicate quotes .quote)

inductive CloseFault (ts : List Token) (b : Bracket) : Reason → Prop
  | unexpected {trees : List Tree} {quotes : Nat} : Outside ts trees quotes →
      CloseFault ts b (.unexpectedClose b.closer)
  | mismatched {b' : Bracket} {trees : List Tree} {quotes : Nat} : Innermost ts b' trees quotes →
      b' ≠ b → CloseFault ts b (.mismatchedClose b'.closer b.closer)
  | quoted {trees : List Tree} {quotes : Nat} : Innermost ts b trees quotes → 0 < quotes →
      CloseFault ts b .quoteBeforeClose
  | odd {trees : List Tree} : Innermost ts b trees 0 → b = .curly → trees.length % 2 = 1 →
      CloseFault ts b .oddMapEntries

inductive EndFault (ts : List Token) : Reason → Prop
  | unterminated {b : Bracket} {trees : List Tree} {quotes : Nat} : Innermost ts b trees quotes →
      EndFault ts (.unterminatedCollection b.closer)
  | dangling {trees : List Tree} {quotes : Nat} : Outside ts trees quotes → 0 < quotes →
      EndFault ts .danglingQuote

namespace Outline

variable {o : Outline} {ts : List Token} {b : Bracket} {reason : Reason}

theorem tokens_of_run (h : start.run ts = .ok o) : o.tokens = ts := by
  rw [tokens_run h]
  rfl

theorem isForms_iff : IsForms ts ↔ ∃ trees, start.run ts = .ok ⟨trees, 0, []⟩ := by
  constructor
  · rintro ⟨trees, rfl⟩
    have h := run_trees trees [] []
    rw [List.append_nil] at h
    exact ⟨trees, h⟩
  · rintro ⟨trees, h⟩
    refine ⟨trees, ?_⟩
    rw [← tokens_of_run h]
    simp [tokens, levelTokens]

theorem repairable_iff : Repairable ts ↔ ∃ o, start.run ts = .ok o := by
  constructor
  · rintro ⟨more, hmore⟩
    obtain ⟨trees, h⟩ := isForms_iff.mp hmore
    obtain ⟨o, ho, -⟩ := run_append_ok h
    exact ⟨o, ho⟩
  · rintro ⟨o, ho⟩
    obtain ⟨more, trees, h⟩ := o.exists_completion
    exact ⟨more, isForms_iff.mpr ⟨trees, by rw [run_append ho, h]⟩⟩

theorem outermost_of_run (h : start.run ts = .ok o) : Outermost ts o.done := by
  constructor
  · rw [← tokens_of_run h]
    exact ⟨_, rfl⟩
  · rintro trees rest rfl
    -- Complete forms at the front are taken first, and what is taken later does not undo them.
    rw [start, run_trees] at h
    simpa using done_run h

def addQuotes (o : Outline) (n : Nat) : Outline :=
  match o.levels with
  | [] => { o with quotes := o.quotes + n }
  | i :: outer => { o with levels := { i with quotes := i.quotes + n } :: outer }

theorem run_quotes (o : Outline) (n : Nat) : o.run (List.replicate n .quote) = .ok (o.addQuotes n) := by
  induction n generalizing o with
  | zero =>
    obtain ⟨done, quotes, levels⟩ := o
    cases levels <;> rfl
  | succ n ih =>
    rw [List.replicate_succ, run_cons rfl, ih]
    obtain ⟨done, quotes, levels⟩ := o
    cases levels <;> simp [addQuotes, quoteMark, Nat.add_assoc, Nat.add_comm 1 n]

theorem outside_iff (h : start.run ts = .ok o) {trees : List Tree} {quotes : Nat} :
    Outside ts trees quotes ↔ o = ⟨trees, quotes, []⟩ := by
  constructor
  · rintro rfl
    rw [start, run_trees, run_quotes] at h
    simpa [addQuotes] using (Except.ok.inj h).symm
  · rintro rfl
    rw [Outside, ← tokens_of_run h]
    simp [tokens, levelTokens]

theorem innermost_iff (h : start.run ts = .ok o) {trees : List Tree} {quotes : Nat} :
    Innermost ts b trees quotes ↔ ∃ outer, o.levels = ⟨b, trees, quotes⟩ :: outer := by
  constructor
  · rintro ⟨outer, rfl⟩
    obtain ⟨o₁, -, h⟩ := run_append_ok h
    rw [run_cons rfl, ← Tree.treeTokens_eq_flatMap, run_treeTokens, List.nil_append, run_quotes] at h
    cases h
    exact ⟨o₁.levels, by simp [addQuotes, openLevel]⟩
  · rintro ⟨outer, hl⟩
    obtain ⟨done, q, levels⟩ := o
    obtain rfl : levels = ⟨b, trees, quotes⟩ :: outer := hl
    rw [← tokens_of_run h]
    exact ⟨done.flatMap Tree.tokens ++ (List.replicate q .quote ++ levelTokens outer),
      by simp [tokens, levelTokens, Level.tokens]⟩

theorem close_error_iff_of_level {done : List Tree} {quotes q : Nat} {b b' : Bracket} {trees : List Tree}
    {outer : List Level} :
    close ⟨done, quotes, ⟨b', trees, q⟩ :: outer⟩ b = .error reason ↔
      b' ≠ b ∧ reason = .mismatchedClose b'.closer b.closer ∨
      b' = b ∧ 0 < q ∧ reason = .quoteBeforeClose ∨
      b' = b ∧ q = 0 ∧ b = .curly ∧ trees.length % 2 = 1 ∧ reason = .oddMapEntries := by
  simp only [close]
  split
  · next hb => simp [hb, eq_comm]
  · next hb =>
    obtain rfl : b' = b := by simpa using hb
    split
    · next hq =>
      have hz : q ≠ 0 := by omega
      simp [hq, hz, eq_comm]
    · next hq =>
      obtain rfl : q = 0 := by omega
      split
      · next t ht =>
        have hn : ¬ (b' = .curly ∧ trees.length % 2 = 1) := by
          rw [← Tree.close?_eq_none_iff, ht]
          simp
        simp only [reduceCtorEq, false_iff]
        tauto
      · next hc =>
        have hn := (Tree.close?_eq_none_iff b' trees).mp hc
        simp [hn, eq_comm]

theorem closeFault_iff (h : start.run ts = .ok o) :
    CloseFault ts b reason ↔ o.close b = .error reason := by
  obtain ⟨done, quotes, levels⟩ := o
  constructor
  · intro hf
    cases hf with
    | unexpected ho =>
      cases (outside_iff h).mp ho
      rfl
    | mismatched hi hne =>
      obtain ⟨outer, rfl⟩ := (innermost_iff h).mp hi
      exact close_error_iff_of_level.mpr (.inl ⟨hne, rfl⟩)
    | quoted hi hq =>
      obtain ⟨outer, rfl⟩ := (innermost_iff h).mp hi
      exact close_error_iff_of_level.mpr (.inr (.inl ⟨rfl, hq, rfl⟩))
    | odd hi hb hodd =>
      obtain ⟨outer, rfl⟩ := (innermost_iff h).mp hi
      exact close_error_iff_of_level.mpr (.inr (.inr ⟨rfl, rfl, hb, hodd, rfl⟩))
  · intro he
    cases levels with
    | nil =>
      cases he
      exact .unexpected ((outside_iff h).mpr rfl)
    | cons i outer =>
      obtain ⟨b', trees, q⟩ := i
      have hi : Innermost ts b' trees q := (innermost_iff h).mpr ⟨outer, rfl⟩
      rcases close_error_iff_of_level.mp he with ⟨hne, rfl⟩ | ⟨rfl, hq, rfl⟩ | ⟨rfl, rfl, hb, hodd, rfl⟩
      · exact .mismatched hi hne
      · exact .quoted hi hq
      · exact .odd hi hb hodd

def complaint? (o : Outline) : Option Reason :=
  match o.levels with
  | i :: _ => some (.unterminatedCollection i.bracket.closer)
  | [] => if o.quotes > 0 then some .danglingQuote else none

theorem complaint?_context (o : Outline) (name : String) (l : Nat) :
    ((o.context name).idle [] l).complaint? = o.complaint? := by
  obtain ⟨done, quotes, levels⟩ := o
  cases levels <;> rfl

theorem endFault_iff (h : start.run ts = .ok o) : EndFault ts reason ↔ o.complaint? = some reason := by
  obtain ⟨done, quotes, levels⟩ := o
  constructor
  · intro hf
    cases hf with
    | unterminated hi =>
      obtain ⟨outer, rfl⟩ := (innermost_iff h).mp hi
      rfl
    | dangling ho hq =>
      cases (outside_iff h).mp ho
      exact if_pos hq
  · intro hc
    cases levels with
    | nil =>
      obtain ⟨hq, rfl⟩ : 0 < quotes ∧ Reason.danglingQuote = reason := by simpa [complaint?] using hc
      exact .dangling ((outside_iff h).mpr rfl) hq
    | cons i outer =>
      cases hc
      exact .unterminated ((innermost_iff h).mpr ⟨outer, rfl⟩)

theorem complaint?_eq_none_iff : o.complaint? = none ↔ o = ⟨o.done, 0, []⟩ := by
  obtain ⟨done, quotes, levels⟩ := o
  cases levels with
  | nil => simp [complaint?]
  | cons i outer => simp [complaint?]

variable {cs : List Char}

theorem read_of_run (h : Laid ts cs) (name : String) (hrun : start.run ts = .ok o) :
    read (String.ofList cs) name =
      ⟨o.done.map Tree.form, o.complaint?.map fun reason => ⟨lineAfter 1 cs, name, reason⟩⟩ := by
  have hlaid : Laid (ts ++ []) cs := by rwa [List.append_nil]
  obtain ⟨before, after, rfl, -, hafter, hread⟩ := reading_run name hlaid hrun
  cases hafter with
  | nil hg =>
    rw [read_eq_reading, hread, reading_end hg, complaint?_context, Tree.forms_eq_map, lineAfter_append]

theorem read_of_close_error {pre post : List Token} (h : Laid (pre ++ .closing b :: post) cs)
    (name : String) (hrun : start.run pre = .ok o) (he : o.close b = .error reason) :
    ∃ before after, cs = before ++ b.closer :: after ∧ Laid pre before ∧
      read (String.ofList cs) name =
        ⟨o.done.map Tree.form, some ⟨lineAfter 1 before, name, reason⟩⟩ := by
  obtain ⟨before, after, rfl, hpre, hafter, hread⟩ := reading_run name h hrun
  cases hafter with
  | @cons _ _ gap w after hg hw _ hafter =>
    obtain rfl : w = [b.closer] := hw
    refine ⟨before ++ gap, after, by simp, hpre.before_layout hg, ?_⟩
    rw [read_eq_reading, hread, reading_layout hg, List.singleton_append, reading_close_error he,
      Tree.forms_eq_map, lineAfter_append]

theorem step_error {t : Token} (h : o.step t = .error reason) :
    ∃ b, t = .closing b ∧ o.close b = .error reason := by
  cases t with
  | closing b => exact ⟨b, rfl, h⟩
  | _ => cases h

theorem repairable_or_first (ts : List Token) :
    Repairable ts ∨
      ∃ pre t post, ts = pre ++ t :: post ∧ Repairable pre ∧ ¬ Repairable (pre ++ [t]) := by
  rcases run_cases start ts with hrun | ⟨pre, t, post, o, reason, rfl, hrun, ht⟩
  · exact .inl (repairable_iff.mpr hrun)
  · refine .inr ⟨pre, t, post, rfl, repairable_iff.mpr ⟨o, hrun⟩, fun hrep => ?_⟩
    obtain ⟨o', h⟩ := repairable_iff.mp hrep
    rw [run_append hrun] at h
    obtain ⟨o₁, ht', -⟩ := run_cons_ok h
    rw [ht] at ht'
    cases ht'

theorem read_forms {trees : List Tree} (h : Laid (trees.flatMap Tree.tokens) cs) (name : String) :
    read (String.ofList cs) name = ⟨trees.map Tree.form, none⟩ := by
  have hrun := run_trees trees [] []
  rw [List.append_nil] at hrun
  exact read_of_run h name hrun

theorem read_of_irreparable {pre post : List Token} {t : Token} (h : Laid (pre ++ t :: post) cs)
    (name : String) (hpre : Repairable pre) (hnot : ¬ Repairable (pre ++ [t])) :
    ∃ b before after done reason, t = .closing b ∧ cs = before ++ b.closer :: after ∧ Laid pre before ∧
      Outermost pre done ∧ (∀ r, CloseFault pre b r ↔ r = reason) ∧
      read (String.ofList cs) name = ⟨done.map Tree.form, some ⟨lineAfter 1 before, name, reason⟩⟩ := by
  obtain ⟨o, hrun⟩ := repairable_iff.mp hpre
  cases ht : o.step t with
  | ok o' => exact absurd (repairable_iff.mpr ⟨o', by rw [run_append hrun, run_cons ht, run_nil]⟩) hnot
  | error reason =>
    obtain ⟨b, rfl, he⟩ := step_error ht
    obtain ⟨before, after, rfl, hbefore, hread⟩ := read_of_close_error h name hrun he
    refine ⟨b, before, after, o.done, reason, rfl, rfl, hbefore, outermost_of_run hrun, ?_, hread⟩
    intro r
    rw [closeFault_iff hrun, he, Except.error.injEq, eq_comm]

theorem read_of_incomplete (h : Laid ts cs) (name : String) (hrep : Repairable ts)
    (hnot : ¬ IsForms ts) :
    ∃ done reason, Outermost ts done ∧ (∀ r, EndFault ts r ↔ r = reason) ∧
      read (String.ofList cs) name = ⟨done.map Tree.form, some ⟨lineAfter 1 cs, name, reason⟩⟩ := by
  obtain ⟨o, hrun⟩ := repairable_iff.mp hrep
  cases hc : o.complaint? with
  | none =>
    rw [complaint?_eq_none_iff.mp hc] at hrun
    exact absurd (isForms_iff.mpr ⟨o.done, hrun⟩) hnot
  | some reason =>
    refine ⟨o.done, reason, outermost_of_run hrun, fun r => ?_, ?_⟩
    · rw [endFault_iff hrun, hc, Option.some.injEq, eq_comm]
    · rw [read_of_run h name hrun, hc]
      rfl

end Outline

/-- Tokens are read without a fault if they are forms. Otherwise the complete forms before the fault are
read. The fault is at the first token that nothing after it can make good, which is a closing bracket, or
at the end of the text if there is no such token, and its reason is what is wrong there. -/
theorem read_tokens {ts : List Token} {cs : List Char} (h : Laid ts cs) (name : String) :
    ((read (String.ofList cs) name).fault? = none ↔ IsForms ts) ∧
    (∀ trees : List Tree, ts = trees.flatMap Tree.tokens →
      read (String.ofList cs) name = ⟨trees.map Tree.form, none⟩) ∧
    (Repairable ts ∨ ∃ pre t post, ts = pre ++ t :: post ∧ Repairable pre ∧ ¬ Repairable (pre ++ [t])) ∧
    (∀ pre t post, ts = pre ++ t :: post → Repairable pre → ¬ Repairable (pre ++ [t]) →
      ∃ b before after done reason, t = .closing b ∧ cs = before ++ b.closer :: after ∧ Laid pre before ∧
        Outermost pre done ∧ (∀ r, CloseFault pre b r ↔ r = reason) ∧
        read (String.ofList cs) name =
          ⟨done.map Tree.form, some ⟨lineAfter 1 before, name, reason⟩⟩) ∧
    (Repairable ts → ¬ IsForms ts →
      ∃ done reason, Outermost ts done ∧ (∀ r, EndFault ts r ↔ r = reason) ∧
        read (String.ofList cs) name = ⟨done.map Tree.form, some ⟨lineAfter 1 cs, name, reason⟩⟩) := by
  refine ⟨⟨fun hnone => ?_, ?_⟩, ?_, Outline.repairable_or_first ts, ?_,
    Outline.read_of_incomplete h name⟩
  · by_contra hnot
    rcases Outline.repairable_or_first ts with hrep | ⟨pre, t, post, rfl, hpre, hirr⟩
    · obtain ⟨done, reason, -, -, hread⟩ := Outline.read_of_incomplete h name hrep hnot
      rw [hread] at hnone
      cases hnone
    · obtain ⟨b, before, after, done, reason, -, -, -, -, -, hread⟩ :=
        Outline.read_of_irreparable h name hpre hirr
      rw [hread] at hnone
      cases hnone
  · rintro ⟨trees, rfl⟩
    rw [Outline.read_forms h]
  · rintro trees rfl
    exact Outline.read_forms h name
  · rintro pre t post rfl hpre hirr
    exact Outline.read_of_irreparable h name hpre hirr

def quotedNothing : List Token := [.atom (integer 1), .opening .round, .quote]

theorem read_tokens_quoted :
    Laid (quotedNothing ++ [.closing .round]) ['1', ' ', '(', ' ', '\x27', ' ', ')'] ∧
      Repairable quotedNothing ∧ ¬ Repairable (quotedNothing ++ [.closing .round]) ∧
      ∃ done line, Outermost quotedNothing done ∧
        read (String.ofList ['1', ' ', '(', ' ', '\x27', ' ', ')']) "a" =
          ⟨done.map Tree.form, some ⟨line, "a", .quoteBeforeClose⟩⟩ := by
  have hspace : Layout [' '] := .blank rfl .nil
  have hone : (integer 1).1.Spells ['1'] := .decimal false (by simp) rfl (by decide)
  have hclose : Laid [.closing .round] ([' '] ++ ([')'] ++ [])) := .cons hspace rfl nofun (.nil .nil)
  have hquote : Laid [.quote, .closing .round] ([' '] ++ (['\x27'] ++ [' ', ')'])) :=
    .cons hspace rfl nofun hclose
  have hopen : Laid [.opening .round, .quote, .closing .round]
      ([' '] ++ (['('] ++ [' ', '\x27', ' ', ')'])) :=
    .cons hspace rfl nofun hquote
  have hlaid : Laid (quotedNothing ++ [.closing .round])
      ([] ++ (['1'] ++ [' ', '(', ' ', '\x27', ' ', ')'])) :=
    .cons .nil hone (fun _ => Text.atBoundary_cons (by decide) _) hopen
  have hrep : Repairable quotedNothing :=
    ⟨[.atom (integer 1), .closing .round], [.atom (integer 1), .list [.quote (.atom (integer 1))]], rfl⟩
  have hnot : ¬ Repairable (quotedNothing ++ [.closing .round]) := by
    rw [Outline.repairable_iff]
    rintro ⟨o, ho⟩
    cases ho
  refine ⟨hlaid, hrep, hnot, ?_⟩
  obtain ⟨b, before, after, done, reason, hb, -, -, hdone, hreason, hread⟩ :=
    (read_tokens hlaid "a").2.2.2.1 _ _ [] rfl hrep hnot
  cases hb
  have hinner : Innermost quotedNothing .round [] 1 := ⟨[.atom (integer 1)], rfl⟩
  obtain rfl : Reason.quoteBeforeClose = reason := (hreason _).mp (.quoted hinner (by decide))
  exact ⟨done, _, hdone, hread⟩

end LazyLisp.Source
