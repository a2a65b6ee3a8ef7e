import LazyLisp.Proofs.Source.Keys

namespace LazyLisp.Source

abbrev ReadableAtom := { a : Atom // a.Readable }

inductive Tree where
  | atom (a : ReadableAtom)
  | quote (t : Tree)
  | list (ts : List Tree)
  | vector (ts : List Tree)
  | map (es : List (Tree × Tree))

inductive Token where
  | opening (b : Bracket)
  | closing (b : Bracket)
  | quote
  | atom (a : ReadableAtom)

namespace Tree

mutual

def form : Tree → Form
  | .atom a => .atom a.1
  | .quote t => (form t).quoted
  | .list ts => .list (forms ts)
  | .vector ts => .vector (forms ts)
  | .map es => .map (Form.merged (entryForms es))

def forms : List Tree → List Form
  | [] => []
  | t :: ts => form t :: forms ts

def entryForms : List (Tree × Tree) → List (Form × Form)
  | [] => []
  | (k, v) :: es => (form k, form v) :: entryForms es

end

mutual

def tokens : Tree → List Token
  | .atom a => [.atom a]
  | .quote t => .quote :: tokens t
  | .list ts => .opening .round :: (treeTokens ts ++ [.closing .round])
  | .vector ts => .opening .square :: (treeTokens ts ++ [.closing .square])
  | .map es => .opening .curly :: (entryTokens es ++ [.closing .curly])

def treeTokens : List Tree → List Token
  | [] => []
  | t :: ts => tokens t ++ treeTokens ts

def entryTokens : List (Tree × Tree) → List Token
  | [] => []
  | (k, v) :: es => tokens k ++ (tokens v ++ entryTokens es)

end

theorem forms_eq_map (ts : List Tree) : forms ts = ts.map form := by
  induction ts with
  | nil => rfl
  | cons t ts ih => simp [forms, ih]

theorem treeTokens_eq_flatMap (ts : List Tree) : treeTokens ts = ts.flatMap tokens := by
  induction ts with
  | nil => rfl
  | cons t ts ih => simp [treeTokens, ih]

def items (es : List (Tree × Tree)) : List Tree := es.flatMap fun e => [e.1, e.2]

theorem entryTokens_eq_flatMap (es : List (Tree × Tree)) :
    entryTokens es = (items es).flatMap tokens := by
  induction es with
  | nil => rfl
  | cons e es ih => simp [entryTokens, items, ih]

theorem forms_items (es : List (Tree × Tree)) : forms (items es) = Form.entryItems (entryForms es) := by
  induction es with
  | nil => rfl
  | cons e es ih =>
    have hi : items (e :: es) = e.1 :: e.2 :: items es := rfl
    rw [hi, forms, forms, ih]
    rfl

mutual

theorem readable_form : ∀ t : Tree, t.form.Readable
  | .atom a => .atom a.2
  | .quote t => Form.readable_quoted (readable_form t)
  | .list ts => .list (readable_forms ts)
  | .vector ts => .vector (readable_forms ts)
  | .map es => by
    have hes := readable_entryForms es
    refine Form.readable_ofItemsOnto ⟨.nil, nofun, nofun⟩ ?_
      (Form.mapOfItems?_entryItems fun e he => (hes e he).1)
    intro g hg
    obtain ⟨e, he, hg⟩ := List.mem_flatMap.mp hg
    rcases List.mem_pair.mp hg with rfl | rfl
    · exact (hes e he).1
    · exact (hes e he).2

theorem readable_forms : ∀ ts : List Tree, ∀ f ∈ forms ts, f.Readable
  | [], _, hf => by cases hf
  | t :: ts, f, hf => by
    rcases List.mem_cons.mp hf with rfl | hf
    · exact readable_form t
    · exact readable_forms ts f hf

theorem readable_entryForms : ∀ es : List (Tree × Tree), ∀ e ∈ entryForms es,
    e.1.Readable ∧ e.2.Readable
  | [], _, he => by cases he
  | (k, v) :: es, e, he => by
    rcases List.mem_cons.mp he with rfl | he
    · exact ⟨readable_form k, readable_form v⟩
    · exact readable_entryForms es e he

end

def pairs? : List Tree → Option (List (Tree × Tree))
  | [] => some []
  | [_] => none
  | k :: v :: ts => (pairs? ts).map ((k, v) :: ·)

theorem eq_items_of_pairs? {ts : List Tree} {es : List (Tree × Tree)} (h : pairs? ts = some es) :
    ts = items es := by
  fun_induction pairs? ts generalizing es with
  | case1 =>
    cases h
    rfl
  | case2 => cases h
  | case3 k v ts ih =>
    obtain ⟨ds, hd, rfl⟩ := Option.map_eq_some_iff.mp h
    simp [items, ih hd]

theorem pairs?_items (es : List (Tree × Tree)) : pairs? (items es) = some es := by
  induction es with
  | nil => rfl
  | cons e es ih => exact congrArg (Option.map _) ih

theorem pairs?_eq_none_iff (ts : List Tree) : pairs? ts = none ↔ ts.length % 2 = 1 := by
  fun_induction pairs? ts with
  | case1 => simp
  | case2 => simp
  | case3 k v ts ih =>
    simp only [Option.map_eq_none_iff, ih, List.length_cons]
    omega

def close? (b : Bracket) (ts : List Tree) : Option Tree :=
  match b with
  | .round => some (.list ts)
  | .square => some (.vector ts)
  | .curly => (pairs? ts).map .map

theorem close?_eq_none_iff (b : Bracket) (ts : List Tree) :
    close? b ts = none ↔ b = .curly ∧ ts.length % 2 = 1 := by
  cases b <;> simp [close?, pairs?_eq_none_iff]

theorem tokens_of_close? {b : Bracket} {ts : List Tree} {t : Tree} (h : close? b ts = some t) :
    t.tokens = .opening b :: (ts.flatMap tokens ++ [.closing b]) := by
  cases b with
  | round =>
    cases h
    rw [tokens, treeTokens_eq_flatMap]
  | square =>
    cases h
    rw [tokens, treeTokens_eq_flatMap]
  | curly =>
    obtain ⟨es, he, rfl⟩ := Option.map_eq_some_iff.mp h
    rw [tokens, entryTokens_eq_flatMap, eq_items_of_pairs? he]

theorem close?_forms (b : Bracket) (ts : List Tree) :
    OpenForm.close? ⟨b, (forms ts).reverse, 0⟩ = (close? b ts).map form := by
  cases b with
  | round => simp [OpenForm.close?, close?, form]
  | square => simp [OpenForm.close?, close?, form]
  | curly =>
    simp only [OpenForm.close?, close?, List.reverse_reverse]
    cases hp : pairs? ts with
    | none =>
      have hodd : (forms ts).length % 2 = 1 := by
        rw [forms_eq_map, List.length_map]
        exact (pairs?_eq_none_iff ts).mp hp
      exact (Form.ofItemsOnto_eq_none_iff [] _).mpr hodd
    | some es =>
      rw [eq_items_of_pairs? hp, forms_items,
        Form.mapOfItems?_entryItems fun e he => (readable_entryForms es e he).1]
      rfl

def quotedTimes : Nat → Tree → Tree
  | 0, t => t
  | n + 1, t => quotedTimes n (.quote t)

theorem form_quotedTimes (n : Nat) (t : Tree) : (quotedTimes n t).form = t.form.quotedTimes n := by
  induction n generalizing t with
  | zero => rfl
  | succ n ih => exact ih (.quote t)

theorem tokens_quotedTimes (n : Nat) (t : Tree) :
    (quotedTimes n t).tokens = List.replicate n .quote ++ t.tokens := by
  induction n generalizing t with
  | zero => rfl
  | succ n ih =>
    rw [quotedTimes, ih, tokens, List.replicate_succ', List.append_assoc]
    rfl

end Tree

/-- A literal that is not closed yet, its items in order, with the quote marks after them. -/
structure Level where
  bracket : Bracket
  trees : List Tree
  quotes : Nat

def Level.tokens (o : Level) : List Token :=
  .opening o.bracket :: (o.trees.flatMap Tree.tokens ++ List.replicate o.quotes .quote)

/-- What has been taken: complete trees, quote marks after them, and unfinished literals, the innermost
first. -/
structure Outline where
  done : List Tree
  quotes : Nat
  levels : List Level

namespace Outline

def start : Outline := ⟨[], 0, []⟩

def put (o : Outline) (t : Tree) : Outline :=
  match o.levels with
  | [] => ⟨o.done ++ [t.quotedTimes o.quotes], 0, []⟩
  | i :: outer => { o with levels := ⟨i.bracket, i.trees ++ [t.quotedTimes i.quotes], 0⟩ :: outer }

def quoteMark (o : Outline) : Outline :=
  match o.levels with
  | [] => { o with quotes := o.quotes + 1 }
  | i :: outer => { o with levels := { i with quotes := i.quotes + 1 } :: outer }

def openLevel (o : Outline) (b : Bracket) (ts : List Tree) : Outline :=
  { o with levels := ⟨b, ts, 0⟩ :: o.levels }

def close (o : Outline) (b : Bracket) : Except Reason Outline :=
  match o.levels with
  | [] => .error (.unexpectedClose b.closer)
  | i :: outer =>
    if i.bracket ≠ b then .error (.mismatchedClose i.bracket.closer b.closer)
    else if i.quotes > 0 then .error .quoteBeforeClose
    else
      match Tree.close? i.bracket i.trees with
      | some t => .ok ({ o with levels := outer }.put t)
      | none => .error .oddMapEntries

def step (o : Outline) : Token → Except Reason Outline
  | .opening b => .ok (o.openLevel b [])
  | .closing b => o.close b
  | .quote => .ok o.quoteMark
  | .atom a => .ok (o.put (.atom a))

def run (o : Outline) (ts : List Token) : Except Reason Outline := ts.foldlM step o

variable {o o' : Outline} {t : Token} {ts us : List Token}

theorem run_nil (o : Outline) : o.run [] = .ok o := rfl

theorem run_cons (ht : o.step t = .ok o') (ts : List Token) : o.run (t :: ts) = o'.run ts := by
  rw [run, List.foldlM_cons, ht]
  rfl

theorem run_append (hts : o.run ts = .ok o') (us : List Token) : o.run (ts ++ us) = o'.run us := by
  rw [run, List.foldlM_append]
  rw [run] at hts
  rw [hts]
  rfl

theorem close_ok {b : Bracket} (h : o.close b = .ok o') :
    ∃ ts outer t, o.levels = ⟨b, ts, 0⟩ :: outer ∧ Tree.close? b ts = some t ∧
      o' = { o with levels := outer }.put t := by
  unfold close at h
  split at h
  · cases h
  · next i outer hl =>
    obtain ⟨b', ts, q⟩ := i
    dsimp only at h
    split at h
    · cases h
    · next hb =>
      obtain rfl : b' = b := by simpa using hb
      split at h
      · cases h
      · next hq =>
        obtain rfl : q = 0 := by omega
        split at h
        · next t ht =>
          cases h
          exact ⟨ts, outer, t, hl, ht, rfl⟩
        · cases h

theorem step_closing (o : Outline) {b : Bracket} {ts : List Tree} {t : Tree}
    (h : Tree.close? b ts = some t) : (o.openLevel b ts).step (.closing b) = .ok (o.put t) := by
  simp [step, close, openLevel, h]

def levelTokens : List Level → List Token
  | [] => []
  | i :: outer => levelTokens outer ++ i.tokens

def tokens (o : Outline) : List Token :=
  o.done.flatMap Tree.tokens ++ (List.replicate o.quotes .quote ++ levelTokens o.levels)

theorem tokens_put (o : Outline) (t : Tree) : (o.put t).tokens = o.tokens ++ t.tokens := by
  obtain ⟨done, quotes, levels⟩ := o
  cases levels with
  | nil => simp [put, tokens, levelTokens, Tree.tokens_quotedTimes]
  | cons i outer => simp [put, tokens, levelTokens, Level.tokens, Tree.tokens_quotedTimes]

theorem tokens_step (h : o.step t = .ok o') : o'.tokens = o.tokens ++ [t] := by
  obtain ⟨done, quotes, levels⟩ := o
  cases t with
  | opening b =>
    cases h
    simp [openLevel, tokens, levelTokens, Level.tokens]
  | closing b =>
    obtain ⟨ts, outer, t, hl, ht, rfl⟩ := close_ok h
    obtain rfl : levels = ⟨b, ts, 0⟩ :: outer := hl
    rw [tokens_put, Tree.tokens_of_close? ht]
    simp [tokens, levelTokens, Level.tokens]
  | quote =>
    cases h
    cases levels with
    | nil => simp [quoteMark, tokens, levelTokens, List.replicate_succ']
    | cons i outer => simp [quoteMark, tokens, levelTokens, Level.tokens, List.replicate_succ']
  | atom a =>
    cases h
    exact tokens_put _ _

theorem run_cases (o : Outline) (ts : List Token) :
    (∃ o', o.run ts = .ok o') ∨ ∃ pre t post o' reason, ts = pre ++ t :: post ∧ o.run pre = .ok o' ∧
      o'.step t = .error reason := by
  induction ts generalizing o with
  | nil => exact .inl ⟨o, rfl⟩
  | cons t ts ih =>
    cases ht : o.step t with
    | error reason => exact .inr ⟨[], t, ts, o, reason, rfl, rfl, ht⟩
    | ok o₁ =>
      rcases ih o₁ with ⟨o', h⟩ | ⟨pre, u, post, o', reason, rfl, h, hu⟩
      · exact .inl ⟨o', by rw [run_cons ht, h]⟩
      · exact .inr ⟨t :: pre, u, post, o', reason, rfl, by rw [run_cons ht, h], hu⟩

theorem run_cons_ok (h : o.run (t :: ts) = .ok o') : ∃ o₁, o.step t = .ok o₁ ∧ o₁.run ts = .ok o' := by
  cases ht : o.step t with
  | error reason =>
    rw [run, List.foldlM_cons, ht] at h
    cases h
  | ok o₁ =>
    rw [run_cons ht] at h
    exact ⟨o₁, rfl, h⟩

theorem run_append_ok (h : o.run (ts ++ us) = .ok o') :
    ∃ o₁, o.run ts = .ok o₁ ∧ o₁.run us = .ok o' := by
  induction ts generalizing o with
  | nil => exact ⟨o, rfl, h⟩
  | cons t ts ih =>
    obtain ⟨o₁, ht, h⟩ := run_cons_ok h
    obtain ⟨o₂, hts, hus⟩ := ih h
    exact ⟨o₂, by rw [run_cons ht, hts], hus⟩

theorem tokens_run (h : o.run ts = .ok o') : o'.tokens = o.tokens ++ ts := by
  induction ts generalizing o with
  | nil =>
    cases h
    simp
  | cons t ts ih =>
    obtain ⟨o₁, ht, h⟩ := run_cons_ok h
    rw [ih h, tokens_step ht]
    simp

theorem done_put (o : Outline) (t : Tree) : o.done <+: (o.put t).done := by
  obtain ⟨done, quotes, levels⟩ := o
  cases levels with
  | nil => exact List.prefix_append _ _
  | cons i outer => exact List.prefix_rfl

theorem done_step (h : o.step t = .ok o') : o.done <+: o'.done := by
  cases t with
  | opening b =>
    cases h
    exact List.prefix_rfl
  | closing b =>
    obtain ⟨ts, outer, t, -, -, rfl⟩ := close_ok h
    exact done_put { o with levels := outer } t
  | quote =>
    cases h
    obtain ⟨done, quotes, levels⟩ := o
    cases levels <;> exact List.prefix_rfl
  | atom a =>
    cases h
    exact done_put o _

theorem done_run (h : o.run ts = .ok o') : o.done <+: o'.done := by
  induction ts generalizing o with
  | nil =>
    cases h
    exact List.prefix_rfl
  | cons t ts ih =>
    obtain ⟨o₁, ht, h⟩ := run_cons_ok h
    exact (done_step ht).trans (ih h)

theorem put_quoteMark (o : Outline) (t : Tree) : o.quoteMark.put t = o.put (.quote t) := by
  obtain ⟨done, quotes, levels⟩ := o
  cases levels <;> rfl

theorem put_openLevel (o : Outline) (b : Bracket) (ts : List Tree) (t : Tree) :
    (o.openLevel b ts).put t = o.openLevel b (ts ++ [t]) := rfl

mutual

theorem run_tokens : ∀ (t : Tree) (o : Outline) (us : List Token),
    o.run (t.tokens ++ us) = (o.put t).run us
  | .atom a, o, us => rfl
  | .quote t, o, us => by
    rw [Tree.tokens, List.cons_append, run_cons rfl, run_tokens t, put_quoteMark]
  | .list ts, o, us => by
    rw [Tree.tokens, List.cons_append, List.append_assoc, run_cons rfl, run_treeTokens ts, List.nil_append]
    exact run_cons (o.step_closing rfl) us
  | .vector ts, o, us => by
    rw [Tree.tokens, List.cons_append, List.append_assoc, run_cons rfl, run_treeTokens ts, List.nil_append]
    exact run_cons (o.step_closing rfl) us
  | .map es, o, us => by
    rw [Tree.tokens, List.cons_append, List.append_assoc, run_cons rfl, run_entryTokens es, List.nil_append]
    refine run_cons (o.step_closing ?_) us
    rw [Tree.close?, Tree.pairs?_items]
    rfl

theorem run_treeTokens : ∀ (ts : List Tree) (o : Outline) (b : Bracket) (before : List Tree)
    (us : List Token), (o.openLevel b before).run (Tree.treeTokens ts ++ us) =
      (o.openLevel b (before ++ ts)).run us
  | [], o, b, before, us => by rw [List.append_nil]; rfl
  | t :: ts, o, b, before, us => by
    rw [Tree.treeTokens, List.append_assoc, run_tokens t, put_openLevel, run_treeTokens ts,
      List.append_assoc]
    rfl

theorem run_entryTokens : ∀ (es : List (Tree × Tree)) (o : Outline) (b : Bracket) (before : List Tree)
    (us : List Token), (o.openLevel b before).run (Tree.entryTokens es ++ us) =
      (o.openLevel b (before ++ Tree.items es)).run us
  | [], o, b, before, us => by rw [Tree.items, List.flatMap_nil, List.append_nil]; rfl
  | (k, v) :: es, o, b, before, us => by
    rw [Tree.entryTokens, List.append_assoc, List.append_assoc, run_tokens k, put_openLevel, run_tokens v,
      put_openLevel, run_entryTokens es, List.append_assoc, List.append_assoc]
    rfl

end

theorem run_trees (trees done : List Tree) (us : List Token) :
    run ⟨done, 0, []⟩ (trees.flatMap Tree.tokens ++ us) = run ⟨done ++ trees, 0, []⟩ us := by
  induction trees generalizing done with
  | nil => simp
  | cons t trees ih =>
    rw [List.flatMap_cons, List.append_assoc, run_tokens]
    refine (ih (done ++ [t])).trans ?_
    simp

def filler : ReadableAtom := ⟨.nil, trivial⟩

theorem exists_close_openLevel (o : Outline) (b : Bracket) (ts : List Tree) :
    ∃ more t, (o.openLevel b ts).run more = .ok (o.put t) := by
  cases hc : Tree.close? b ts with
  | some t => exact ⟨[.closing b], t, run_cons (o.step_closing hc) []⟩
  | none =>
    obtain ⟨rfl, hodd⟩ := (Tree.close?_eq_none_iff b ts).mp hc
    have hsome : Tree.close? .curly (ts ++ [.atom filler]) ≠ none := by
      rw [ne_eq, Tree.close?_eq_none_iff, List.length_append, List.length_singleton]
      omega
    obtain ⟨t, ht⟩ := Option.ne_none_iff_exists'.mp hsome
    exact ⟨[.atom filler, .closing .curly], t,
      (run_cons rfl _).trans (run_cons (o.step_closing ht) [])⟩

theorem length_levels_put (o : Outline) (t : Tree) : (o.put t).levels.length = o.levels.length := by
  obtain ⟨done, quotes, levels⟩ := o
  cases levels <;> rfl

theorem exists_openLevel (done : List Tree) (quotes : Nat) (i : Level) (outer : List Level) :
    ∃ more ts, run ⟨done, quotes, i :: outer⟩ more =
      .ok ((⟨done, quotes, outer⟩ : Outline).openLevel i.bracket ts) := by
  obtain ⟨b, ts, q⟩ := i
  cases q with
  | zero => exact ⟨[], ts, rfl⟩
  | succ q => exact ⟨[.atom filler], ts ++ [(Tree.atom filler).quotedTimes (q + 1)], rfl⟩

theorem exists_completion (o : Outline) : ∃ more trees, o.run more = .ok ⟨trees, 0, []⟩ := by
  obtain ⟨n, hn⟩ : ∃ n, o.levels.length = n := ⟨_, rfl⟩
  induction n generalizing o with
  | zero =>
    obtain ⟨done, quotes, levels⟩ := o
    obtain rfl : levels = [] := List.eq_nil_of_length_eq_zero hn
    cases quotes with
    | zero => exact ⟨[], done, rfl⟩
    | succ q => exact ⟨[.atom filler], _, rfl⟩
  | succ n ih =>
    obtain ⟨done, quotes, levels⟩ := o
    obtain ⟨i, outer, rfl⟩ := List.exists_cons_of_length_eq_add_one hn
    obtain ⟨more₁, ts, h₁⟩ := exists_openLevel done quotes i outer
    obtain ⟨more₂, t, h₂⟩ := exists_close_openLevel ⟨done, quotes, outer⟩ i.bracket ts
    have hlen : ((⟨done, quotes, outer⟩ : Outline).put t).levels.length = n := by
      rw [length_levels_put]
      exact Nat.succ.inj hn
    obtain ⟨more₃, trees, h₃⟩ := ih _ hlen
    exact ⟨more₁ ++ (more₂ ++ more₃), trees, by rw [run_append h₁, run_append h₂, h₃]⟩

end Outline

end LazyLisp.Source
