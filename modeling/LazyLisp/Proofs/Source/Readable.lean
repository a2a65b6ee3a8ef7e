import LazyLisp.Proofs.Source.Atoms

namespace LazyLisp

namespace Form

/-- The forms whose written form is read back. No two keys of a map are the same. -/
inductive Readable : Form → Prop
  | atom {a : Atom} : a.Readable → Readable (.atom a)
  | list {xs : List Form} : (∀ f ∈ xs, Readable f) → Readable (.list xs)
  | vector {xs : List Form} : (∀ f ∈ xs, Readable f) → Readable (.vector xs)
  | map {es : List (Form × Form)} : es.Pairwise (fun d e => same d.1 e.1 = false) →
      (∀ e ∈ es, Readable e.1) → (∀ e ∈ es, Readable e.2) → Readable (.map es)

theorem readable_quoted {f : Form} (hf : f.Readable) : f.quoted.Readable := by
  refine .list fun g hg => ?_
  simp only [List.mem_cons, List.not_mem_nil, or_false] at hg
  rcases hg with rfl | rfl
  · exact .atom (.inr ⟨Text.isToken_of_all rfl rfl, by decide⟩)
  · exact hf

theorem readable_quotedTimes {f : Form} (hf : f.Readable) (n : Nat) : (f.quotedTimes n).Readable := by
  induction n generalizing f with
  | zero => exact hf
  | succ n ih => exact ih (readable_quoted hf)

structure ReadableEntries (es : List (Form × Form)) : Prop where
  distinct : es.Pairwise fun d e => same d.1 e.1 = false
  keys : ∀ e ∈ es, Readable e.1
  values : ∀ e ∈ es, Readable e.2

theorem mem_putEntry {es : List (Form × Form)} {key value : Form} {e : Form × Form}
    (he : e ∈ putEntry es key value) :
    (e.1 = key ∨ ∃ d ∈ es, e.1 = d.1) ∧ (e.2 = value ∨ ∃ d ∈ es, e.2 = d.2) := by
  induction es with
  | nil => simp_all [putEntry]
  | cons d es ih =>
    obtain ⟨k, v⟩ := d
    simp only [putEntry] at he
    split at he
    · simp only [List.mem_cons] at he
      rcases he with rfl | he
      · exact ⟨.inr ⟨(k, v), by simp, rfl⟩, .inl rfl⟩
      · exact ⟨.inr ⟨e, by simp [he], rfl⟩, .inr ⟨e, by simp [he], rfl⟩⟩
    · simp only [List.mem_cons] at he
      rcases he with rfl | he
      · exact ⟨.inr ⟨(k, v), by simp, rfl⟩, .inr ⟨(k, v), by simp, rfl⟩⟩
      · grind

theorem key_mem_putEntry_of {es : List (Form × Form)} {key value k : Form}
    (hk : same k key = false) (h : ∀ e ∈ es, same k e.1 = false) :
    ∀ e ∈ putEntry es key value, same k e.1 = false := by
  intro e he
  rcases (mem_putEntry he).1 with h' | ⟨d, hd, h'⟩
  · rwa [h']
  · rw [h']
    exact h d hd

theorem distinct_putEntry {es : List (Form × Form)}
    (h : es.Pairwise fun d e => same d.1 e.1 = false) (key value : Form) :
    (putEntry es key value).Pairwise fun d e => same d.1 e.1 = false := by
  induction es with
  | nil => simp [putEntry]
  | cons d es ih =>
    obtain ⟨k, v⟩ := d
    obtain ⟨hd, hes⟩ := List.pairwise_cons.mp h
    simp only [putEntry]
    split
    · exact List.pairwise_cons.mpr ⟨hd, hes⟩
    · next hk => exact List.pairwise_cons.mpr ⟨key_mem_putEntry_of (by simpa using hk) hd, ih hes⟩

theorem readableEntries_putEntry {es : List (Form × Form)} {key value : Form}
    (h : ReadableEntries es) (hk : key.Readable) (hv : value.Readable) :
    ReadableEntries (putEntry es key value) := by
  refine ⟨distinct_putEntry h.distinct key value, fun e he => ?_, fun e he => ?_⟩
  · rcases (mem_putEntry he).1 with h' | ⟨d, hd, h'⟩
    · rwa [h']
    · rw [h']
      exact h.keys d hd
  · rcases (mem_putEntry he).2 with h' | ⟨d, hd, h'⟩
    · rwa [h']
    · rw [h']
      exact h.values d hd

theorem readable_ofItemsOnto {es : List (Form × Form)} {items : List Form} {f : Form}
    (hes : ReadableEntries es) (hi : ∀ g ∈ items, g.Readable)
    (h : ofItemsOnto es items = some f) : f.Readable := by
  fun_induction ofItemsOnto es items with
  | case1 es =>
    cases h
    exact .map hes.distinct hes.keys hes.values
  | case2 => cases h
  | case3 es key value rest ih =>
    have hk := hi key (by simp)
    have hv := hi value (by simp)
    exact ih (readableEntries_putEntry hes hk hv) (fun g hg => hi g (by simp [hg])) h

end Form

namespace Source

def KeywordUnderWay (token : List Char) : Prop :=
  ∃ colons name : List Char, (colons = [':'] ∨ colons = [':', ':']) ∧
    (∀ c ∈ name, Text.isKeywordChar c = true) ∧ token = name.reverse ++ colons

def QualifiedUnderWay (token : List Char) : Prop :=
  ∃ colons space name : List Char, (colons = [':'] ∨ colons = [':', ':']) ∧ Text.IsName space ∧
    (∀ c ∈ name, Text.isKeywordChar c = true) ∧ token = name.reverse ++ '/' :: (space.reverse ++ colons)

/-- What a token under way can be in each mode, `next` being the character after it. -/
def UnderWay (mode : Mode) (token : List Char) (next : Option Char) : Prop :=
  match mode with
  -- A lone minus sign before a digit is not a symbol, since it would be read back into a number.
  | .normal => token = [] ∨
      Text.IsToken token.reverse ∧ (token = ['-'] → next.any Char.isDigit = false)
  | .character | .comment => token = []
  | .string => Text.isStringBody token.reverse = true
  | .keyword => KeywordUnderWay token
  | .qualifiedKeyword => QualifiedUnderWay token
  | .number _ | .decimal | .radixNumber _ => True

def ItemsReadable (stack : List OpenForm) : Prop := ∀ o ∈ stack, ∀ f ∈ o.items, f.Readable

namespace Reader

/-- All items of the open literals can be written and read back, and so can the token under way once it
is complete. -/
structure Sound (r : Reader) : Prop where
  items : ItemsReadable r.stack
  token : UnderWay r.mode r.token r.cursor.peek?

end Reader

def Step.Sound : Step → Prop
  | .more r => r.Sound
  | .form f r => f.Readable ∧ r.Sound
  | .fault _ _ => True

namespace Reader

variable {r : Reader} {c : Char}

theorem sound_emit {f : Form} (hm : r.mode = .normal) (ht : r.token = [])
    (hi : ItemsReadable r.stack) (hf : f.Readable) : (r.emit f).Sound := by
  unfold emit
  split
  · next o stack hs =>
    refine ⟨fun o' ho g hg => ?_, ?_⟩
    · simp only [List.mem_cons] at ho
      rcases ho with rfl | ho
      · simp only [List.mem_cons] at hg
        rcases hg with rfl | hg
        · exact Form.readable_quotedTimes hf _
        · exact hi o (by simp [hs]) g hg
      · exact hi o' (by simp [hs, ho]) g hg
    · simp [UnderWay, hm, ht]
  · next hs =>
    refine ⟨Form.readable_quotedTimes hf _, fun o ho => ?_, ?_⟩
    · simp [hs] at ho
    · simp [UnderWay, hm, ht]

theorem readable_tokenForm {token : List Char} (h : Text.IsToken token) : (tokenForm token).Readable := by
  unfold tokenForm
  split
  · exact .atom trivial
  split
  · exact .atom trivial
  split
  · exact .atom trivial
  · refine .atom (.inr ?_)
    simp only [String.toList_ofList]
    exact ⟨h, by simp_all [Text.constants]⟩

theorem sound_closeBracket (hm : r.mode = .normal) (ht : r.token = [])
    (hi : ItemsReadable r.stack) : (r.closeBracket c).Sound := by
  unfold closeBracket
  split
  · trivial
  next o stack hs =>
  split
  · trivial
  split
  · trivial
  split
  · next f hf =>
    refine sound_emit hm ht (fun o' ho => hi o' (by simp [hs, ho])) ?_
    have ho : ∀ g ∈ o.items.reverse, g.Readable := fun g hg => hi o (by simp [hs]) g (by simpa using hg)
    unfold OpenForm.close? at hf
    split at hf
    · cases hf
      exact .list ho
    · cases hf
      exact .vector ho
    · exact Form.readable_ofItemsOnto ⟨.nil, by simp, by simp⟩ ho hf
  · trivial

theorem sound_number {n : Numeral} {mode : Numeral → Mode}
    (hi : ItemsReadable r.stack)
    (hm : ∀ n token next, UnderWay (mode n) token next) : (r.pushDigit n c mode).Sound := by
  unfold pushDigit
  split
  · exact ⟨hi, hm _ _ _⟩
  · trivial
  · trivial

theorem sound_emitNumber {n : Numeral} (hi : ItemsReadable r.stack) :
    (r.emitNumber n).Sound := by
  unfold emitNumber
  split
  · trivial
  · exact sound_emit rfl rfl hi (.atom trivial)

theorem sound_inNumber {n : Numeral} (hi : ItemsReadable r.stack) :
    (r.inNumber n c).Sound := by
  unfold inNumber
  split
  · exact sound_number hi fun _ _ _ => trivial
  split
  · exact ⟨hi, trivial⟩
  split
  · split
    · trivial
    · exact ⟨hi, trivial⟩
  split
  · exact ⟨hi, trivial⟩
  split
  · exact sound_emitNumber hi
  · trivial

theorem sound_inRadixNumber {n : Numeral} (hi : ItemsReadable r.stack) :
    (r.inRadixNumber n c).Sound := by
  unfold inRadixNumber
  split
  · exact sound_number hi fun _ _ _ => trivial
  split
  · exact sound_emitNumber hi
  · trivial

theorem startsSymbol_append {cs : List Char} (h : Text.startsSymbol cs = true)
    (hd : cs = ['-'] → c.isDigit = false) : Text.startsSymbol (cs ++ [c]) = true := by
  unfold Text.startsSymbol at h
  split at h
  · cases h
  · next rest =>
    cases rest with
    | nil => simp [Text.startsSymbol, hd rfl]
    | cons d rest => simpa [Text.startsSymbol] using h
  · next d rest hne =>
    simp_all [Text.startsSymbol]

theorem sound_push (hm : r.mode = .normal) (hi : ItemsReadable r.stack)
    (ht : UnderWay .normal r.token (some c)) (hc : endsSymbol c = false)
    (hs : r.token = [] → Text.startsSymbol [c] = true ∧ (c = '-' → r.cursor.peek?.any Char.isDigit = false)) :
    (r.push c).Sound := by
  refine ⟨hi, ?_⟩
  simp only [push, hm, UnderWay, List.reverse_cons]
  refine .inr ⟨?_, ?_⟩
  · rcases ht with ht | ⟨ht, hd⟩
    · simp only [ht, List.reverse_nil, List.nil_append]
      exact ⟨(hs ht).1, by simpa using hc⟩
    · refine ⟨startsSymbol_append ht.starts ?_, ?_⟩
      · intro h
        have : r.token = ['-'] := by simpa using congrArg List.reverse h
        simpa using hd this
      · intro d hd
        simp only [List.mem_append, List.mem_singleton] at hd
        rcases hd with hd | rfl
        · exact ht.inside d hd
        · exact hc
  · intro h
    simp only [List.cons.injEq] at h
    exact (hs h.2).2 h.1

theorem sound_quoteMark (h : r.Sound) : r.quoteMark.Sound := by
  unfold quoteMark
  split
  · next o stack hs =>
    refine ⟨fun o' ho => ?_, h.token⟩
    simp only [List.mem_cons] at ho
    rcases ho with rfl | ho
    · exact h.items o (by simp [hs])
    · exact h.items o' (by simp [hs, ho])
  · exact ⟨h.items, h.token⟩

theorem sound_plain (hm : r.mode = .normal) (hi : ItemsReadable r.stack)
    (ht : UnderWay .normal r.token (some c)) (he : endsSymbol c = true → r.token = []) :
    (r.plain c).Sound := by
  have sound (h : endsSymbol c = true) : r.Sound := ⟨hi, by simp [UnderWay, hm, he h]⟩
  have mark {name : String} (hn : name.toList ∈ Text.marks) : (Form.symbol name).Readable :=
    .atom (.inl hn)
  unfold plain
  split
  · next hb =>
    refine sound ?_
    unfold endsSymbol
    split <;> first | rfl | exact hb
  next hb =>
  split
  case h_1 | h_2 | h_3 =>
    refine ⟨fun o ho => ?_, (sound rfl).token⟩
    simp only [openBracket, List.mem_cons] at ho
    rcases ho with rfl | ho
    · simp [OpenForm.start]
    · exact hi o ho
  case h_4 | h_5 | h_6 => exact sound_closeBracket hm (he rfl) hi
  case h_7 => exact sound_quoteMark (sound rfl)
  case h_8 | h_9 | h_10 | h_11 => exact sound_emit hm (he rfl) hi (mark (by decide))
  case h_12 =>
    split
    · exact sound_emit hm (he rfl) hi (mark (by decide))
    · exact sound_emit hm (he rfl) hi (mark (by decide))
  case h_13 =>
    refine ⟨hi, ?_⟩
    simp [UnderWay, he rfl, Text.isStringBody]
  case h_14 | h_15 => exact ⟨hi, he rfl⟩
  case h_16 =>
    split
    · exact ⟨hi, trivial⟩
    · next hd =>
      refine sound_push hm hi ht rfl fun h => ⟨rfl, fun _ => ?_⟩
      simpa [h] using hd
  case h_17 =>
    have hc : endsSymbol c = false := by
      unfold endsSymbol
      split
      case h_16 => simpa using hb
      all_goals contradiction
    split
    · exact sound_inNumber hi
    next hd =>
    split
    · next hk =>
      refine ⟨hi, [':'], [], .inl rfl, by simp, ?_⟩
      simp [push, hk]
    · next hk =>
      refine sound_push hm hi ht hc fun h => ⟨?_, ?_⟩
      · simp_all [Text.startsSymbol]
      · intro hc
        contradiction

theorem sound_inNormal (hm : r.mode = .normal) (hi : ItemsReadable r.stack)
    (ht : UnderWay .normal r.token (some c)) : (r.inNormal c).Sound := by
  unfold inNormal
  split
  · next hr =>
    have htoken : Text.IsToken r.token.reverse := by
      rcases ht with ht | ht
      · exact absurd ht hr.1
      · exact ht.1
    have hs : r.emitToken.Sound := sound_emit rfl rfl hi (readable_tokenForm htoken)
    split
    · next r' he =>
      rw [he] at hs
      unfold emitToken emit at he
      split at he
      · cases he
        exact sound_plain rfl hs.items (.inl rfl) fun _ => rfl
      · cases he
    · next f r' he =>
      rw [he] at hs
      unfold emitToken emit at he
      split at he
      · cases he
      · cases he
        exact ⟨hs.1, hs.2.items, .inl rfl⟩
    · trivial
  · next hr =>
    exact sound_plain hm hi ht fun he => Decidable.byContradiction fun ht => hr ⟨ht, he⟩

theorem isStringBody_append {body : List Char} (hb : Text.isStringBody body = true) (tail : List Char)
    (ht : Text.isStringBody tail = true) : Text.isStringBody (body ++ tail) = true := by
  fun_induction Text.isStringBody body with
  | case1 => exact ht
  | case2 c rest ih => simpa [Text.isStringBody] using ih hb
  | case3 c rest hc ih =>
    simp only [Bool.and_eq_true, bne_iff_ne, ne_eq] at hb
    simp [Text.isStringBody, hb, ih]

theorem sound_inString (hm : r.mode = .string) (hi : ItemsReadable r.stack)
    (ht : Text.isStringBody r.token.reverse = true) : (r.inString c).Sound := by
  unfold inString
  split
  · refine sound_emit rfl rfl hi (.atom ?_)
    simpa [Atom.Readable, text] using ht
  next hq =>
  split
  · next hb =>
    split
    · next d s hs =>
      subst hb
      refine ⟨hi, ?_⟩
      simpa [UnderWay, push, hm] using isStringBody_append ht ['\\', d] rfl
    · trivial
  · next hb =>
    refine ⟨hi, ?_⟩
    simpa [UnderWay, push, hm] using
      isStringBody_append ht [c] (by simp [Text.isStringBody, hb, hq])

theorem sound_inComment (hi : ItemsReadable r.stack) (hm : r.mode = .comment)
    (ht : r.token = []) : (r.inComment c).Sound := by
  unfold inComment
  split
  · exact ⟨hi, .inl ht⟩
  split
  · split
    · exact ⟨hi, .inl ht⟩
    · exact ⟨hi, .inl ht⟩
  · exact ⟨hi, by simpa [UnderWay, hm] using ht⟩

theorem readable_keyword_of_complete (ht : KeywordUnderWay r.token) (hk : r.keywordComplete = true) :
    (Form.atom (.keyword r.text)).Readable := by
  obtain ⟨colons, name, hcol, hn, ht⟩ := ht
  have hne : name ≠ [] := by
    rintro rfl
    rcases hcol with rfl | rfl <;> simp [keywordComplete, ht] at hk
  have hrev : r.token.reverse = colons ++ name := by
    rcases hcol with rfl | rfl <;> simp [ht]
  refine .atom ?_
  simp only [Atom.Readable, text, String.toList_ofList, hrev]
  exact .bare hcol ⟨hne, hn⟩

theorem sound_inKeyword (hm : r.mode = .keyword) (hi : ItemsReadable r.stack)
    (ht : KeywordUnderWay r.token) : (r.inKeyword c).Sound := by
  unfold inKeyword
  split
  · next hc =>
    refine ⟨hi, ?_⟩
    simp only [UnderWay, push, hm]
    obtain ⟨colons, name, hcol, hn, ht⟩ := ht
    rcases hc with hc | ⟨rfl, hc⟩
    · refine ⟨colons, name ++ [c], hcol, ?_, by simp [ht]⟩
      intro d hd
      simp only [List.mem_append, List.mem_singleton] at hd
      rcases hd with hd | rfl
      · exact hn d hd
      · exact hc
    · exact ⟨[':', ':'], [], .inr rfl, by simp, by simp [hc]⟩
  split
  · next hc =>
    obtain ⟨colons, name, hcol, hn, htk⟩ := ht
    refine ⟨hi, colons, name, [], hcol, ⟨?_, hn⟩, by simp, by simp [push, htk, hc.1]⟩
    rintro rfl
    rcases hcol with rfl | rfl <;> simp [keywordComplete, htk] at hc
  split
  · next hk => exact sound_emit rfl rfl hi (readable_keyword_of_complete ht hk)
  · trivial

theorem readable_keyword_of_name (ht : QualifiedUnderWay r.token) (hk : r.nameComplete = true) :
    (Form.atom (.keyword r.text)).Readable := by
  obtain ⟨colons, space, name, hcol, hs, hn, ht⟩ := ht
  have hne : name ≠ [] := by
    rintro rfl
    simp [nameComplete, ht] at hk
  have hrev : r.token.reverse = colons ++ space ++ '/' :: name := by
    rcases hcol with rfl | rfl <;> simp [ht]
  refine .atom ?_
  simp only [Atom.Readable, text, String.toList_ofList, hrev]
  exact .qualified hcol hs ⟨hne, hn⟩

theorem sound_inQualifiedKeyword (hm : r.mode = .qualifiedKeyword)
    (hi : ItemsReadable r.stack) (ht : QualifiedUnderWay r.token) :
    (r.inQualifiedKeyword c).Sound := by
  unfold inQualifiedKeyword
  split
  · next hc =>
    refine ⟨hi, ?_⟩
    simp only [UnderWay, push, hm]
    obtain ⟨colons, space, name, hcol, hs, hn, ht⟩ := ht
    refine ⟨colons, space, name ++ [c], hcol, hs, ?_, by simp [ht]⟩
    intro d hd
    simp only [List.mem_append, List.mem_singleton] at hd
    rcases hd with hd | rfl
    · exact hn d hd
    · exact hc
  split
  · next hk => exact sound_emit rfl rfl hi (readable_keyword_of_name ht hk)
  · trivial

theorem sound_inCharacter (hi : ItemsReadable r.stack) (ht : r.token = []) :
    (r.inCharacter c).Sound := by
  unfold inCharacter
  split
  · exact sound_emit rfl ht hi (.atom trivial)
  · trivial

theorem sound_step (hi : ItemsReadable r.stack)
    (ht : UnderWay r.mode r.token (some c)) : (r.step c).Sound := by
  unfold step
  split
  · next hm => exact sound_inNormal hm hi (hm ▸ ht)
  · next hm =>
    rw [hm] at ht
    exact sound_inCharacter hi ht
  · next hm =>
    rw [hm] at ht
    exact sound_inString hm hi ht
  · next hm =>
    rw [hm] at ht
    exact sound_inComment hi hm ht
  · next hm =>
    rw [hm] at ht
    exact sound_inKeyword hm hi ht
  · next hm =>
    rw [hm] at ht
    exact sound_inQualifiedKeyword hm hi ht
  · exact sound_inNumber hi
  · trivial
  · exact sound_inRadixNumber hi

theorem sound_flush (h : r.Sound) : r.flush.Sound := by
  obtain ⟨hi, ht⟩ := h
  unfold flush
  split
  case h_1 hm =>
    split
    · exact ⟨hi, .inl rfl⟩
    · next hne =>
      rw [hm] at ht
      rcases ht with ht | ht
      · exact absurd ht hne
      · exact sound_emit rfl rfl hi (readable_tokenForm ht.1)
  case h_2 hm =>
    split
    · exact ⟨hi, .inl rfl⟩
    · next hne =>
      rw [hm] at ht
      exact absurd ht hne
  case h_3 | h_4 | h_9 => trivial
  case h_5 hm =>
    rw [hm] at ht
    split
    · next hk => exact sound_emit rfl rfl hi (readable_keyword_of_complete ht hk)
    · trivial
  case h_6 hm =>
    rw [hm] at ht
    split
    · next hk => exact sound_emit rfl rfl hi (readable_keyword_of_name ht hk)
    · trivial
  case h_7 | h_8 => exact sound_emitNumber hi

theorem underWay_of_take? {s : Cursor} (h : r.Sound) (ht : r.cursor.take? = some (c, s)) :
    UnderWay r.mode r.token (some c) := by
  have hp : r.cursor.peek? = some c := by
    unfold Cursor.take? at ht
    unfold Cursor.peek?
    split at ht
    · simp_all
    · split at ht <;> simp_all
  exact hp ▸ h.token

theorem sound_advance {s : Reader} {f : Form} (h : r.Sound) (ha : r.advance = (some (.ok f), s)) :
    f.Readable ∧ s.Sound := by
  fun_induction advance r with
  | case1 r ht =>
    have hf := sound_flush h
    unfold finish at ha
    split at ha
    · next he =>
      cases ha
      rw [he] at hf
      exact hf
    · cases ha
    · next r' _ => cases hc : r'.complaint? <;> simp [hc] at ha
  | case2 r c t ht r' hs ih =>
    have hu := underWay_of_take? h ht
    have hstep := sound_step (r := { r with cursor := t }) h.items hu
    rw [hs] at hstep
    exact ih hstep ha
  | case3 r c t ht f' r' hs =>
    cases ha
    have hu := underWay_of_take? h ht
    have hstep := sound_step (r := { r with cursor := t }) h.items hu
    rwa [hs] at hstep
  | case4 r c t ht reason r' hs => cases ha

theorem readable_of_mem_rest (h : r.Sound) : ∀ f ∈ r.rest.1, f.Readable := by
  fun_induction rest r with
  | case1 => simp
  | case2 => simp
  | case3 r f r' hn tail ih =>
    have ha : f.Readable ∧ r'.Sound := by
      unfold next at hn
      split at hn
      · cases hn
      split at hn
      · cases hn
      · next ha =>
        cases hn
        exact sound_advance h ha
      · cases hn
    intro g hg
    simp only [List.mem_cons] at hg
    rcases hg with rfl | hg
    · exact ha.1
    · exact ih ha.2 g hg

end Reader

theorem readable_of_mem_forms (text name : String) : ∀ f ∈ (read text name).forms, f.Readable :=
  Reader.readable_of_mem_rest ⟨by simp [ItemsReadable, Reader.start], .inl rfl⟩

end Source

end LazyLisp
