import LazyLisp.CommandLine
import LazyLisp.Proofs.Source.Readable

namespace LazyLisp

namespace Form

theorem putEntry_of_distinct {es : List (Form × Form)} {key : Form} (value : Form)
    (h : ∀ e ∈ es, same e.1 key = false) : putEntry es key value = es ++ [(key, value)] := by
  induction es with
  | nil => rfl
  | cons e es ih =>
    have he : same e.1 key = false := h e (by simp)
    simp [putEntry, he, ih (fun d hd => h d (by simp [hd]))]

def entryItems (es : List (Form × Form)) : List Form := es.flatMap fun e => [e.1, e.2]

theorem ofItemsOnto_entryItems (done : List (Form × Form)) {es : List (Form × Form)}
    (h : (done ++ es).Pairwise (fun d e => same d.1 e.1 = false)) :
    ofItemsOnto done (entryItems es) = some (.map (done ++ es)) := by
  induction es generalizing done with
  | nil => simp [entryItems, ofItemsOnto]
  | cons e es ih =>
    have hd : ∀ d ∈ done, same d.1 e.1 = false :=
      fun d hd => (List.pairwise_append.mp h).2.2 d hd e (by simp)
    have hp := putEntry_of_distinct e.2 hd
    change ofItemsOnto (putEntry done e.1 e.2) (entryItems es) = _
    rw [hp, ih _ (by simpa using h)]
    simp

end Form

def Source.Bracket.opener : Bracket → Char
  | .round => '('
  | .square => '['
  | .curly => '\x7b'

namespace Source.Context

variable {x : Context} {cs : List Char} {l : Nat} {c : Char}

theorem rest_blank (hc : Text.isBlank c = true) :
    (x.idle (c :: cs) l).rest = (x.idle cs (nextLine l c)).rest := by
  refine rest_more ?_
  change Reader.inNormal _ c = _
  rw [Reader.inNormal, if_neg (by simp [reader])]
  unfold Reader.plain
  rw [if_pos hc]

def within (x : Context) (b : Bracket) (items : List Form) : Context :=
  ⟨x.name, ⟨b, items, 0⟩ :: x.stack, x.quotes⟩

theorem accept_within (x : Context) (b : Bracket) (items : List Form) (f : Form) (cs : List Char)
    (l : Nat) : (x.within b items).accept f cs l = ((x.within b (f :: items)).idle cs l).rest := rfl

theorem rest_open (b : Bracket) :
    (x.idle (b.opener :: cs) l).rest = ((x.within b []).idle cs (nextLine l b.opener)).rest := by
  cases b <;> exact rest_more rfl

theorem rest_close {b : Bracket} {items : List Form} {f : Form}
    (hf : OpenForm.close? ⟨b, items, 0⟩ = some f) :
    ((x.within b items).idle (b.closer :: cs) l).rest = x.accept f cs (nextLine l b.closer) := by
  have hs : ((x.within b items).idle cs (nextLine l b.closer)).closeBracket b.closer =
      (x.idle cs (nextLine l b.closer)).emit f := by
    simp only [Reader.closeBracket, within, idle, reader, ne_eq, not_true_eq_false, if_false,
      Nat.lt_irrefl, gt_iff_lt, hf]
  have hstep : ((x.within b items).idle cs (nextLine l b.closer)).step b.closer =
      (x.idle cs (nextLine l b.closer)).emit f := by
    rw [← hs]
    cases b <;> rfl
  exact rest_step hstep fun _ => failed_emit

/-- A text that is read as the form `f` before every boundary. -/
def Reads (f : Form) : Prop :=
  ∀ (x : Context) (c : Char) (cs : List Char) (l : Nat), c ∈ Text.boundaries →
    (x.idle (f.text .readable ++ c :: cs) l).rest =
      x.accept f (c :: cs) (lineAfter l (f.text .readable))

theorem rest_items {xs : List Form} (hx : ∀ f ∈ xs, Reads f) (hc : c ∈ Text.boundaries) (b : Bracket)
    (items : List Form) (l : Nat) :
    ((x.within b items).idle ([' '].intercalate (xs.map (Form.text .readable)) ++ c :: cs) l).rest =
      ((x.within b (xs.reverse ++ items)).idle (c :: cs)
        (lineAfter l ([' '].intercalate (xs.map (Form.text .readable))))).rest := by
  induction xs generalizing items l with
  | nil => rfl
  | cons f xs ih =>
    have hf := hx f (by simp)
    cases xs with
    | nil =>
      have h := hf (x.within b items) c cs l hc
      simpa [List.intercalate, accept_within] using h
    | cons g xs =>
      have ht : [' '].intercalate ((f :: g :: xs).map (Form.text .readable)) =
          f.text .readable ++ ' ' :: [' '].intercalate ((g :: xs).map (Form.text .readable)) := by
        simp [List.intercalate]
      have h := hf (x.within b items) ' '
        ([' '].intercalate ((g :: xs).map (Form.text .readable)) ++ c :: cs) l (by decide)
      rw [ht, List.append_assoc, List.cons_append, h, accept_within, rest_blank rfl,
        ih (fun f hf => hx f (by simp [hf]))]
      simp

theorem rest_entry {e : Form × Form} (hk : Reads e.1) (hv : Reads e.2) (hc : c ∈ Text.boundaries)
    (b : Bracket) (items : List Form) (cs : List Char) (l : Nat) :
    ((x.within b items).idle (e.1.text .readable ++ ' ' :: (e.2.text .readable ++ c :: cs)) l).rest =
      ((x.within b (e.2 :: e.1 :: items)).idle (c :: cs)
        (lineAfter l (e.1.text .readable ++ ' ' :: e.2.text .readable))).rest := by
  rw [hk _ _ _ _ (by decide), accept_within, rest_blank rfl, hv _ _ _ _ hc, accept_within]
  simp

theorem rest_entries {es : List (Form × Form)} (hk : ∀ e ∈ es, Reads e.1) (hv : ∀ e ∈ es, Reads e.2)
    (hc : c ∈ Text.boundaries) (b : Bracket) (items : List Form) (l : Nat) :
    ((x.within b items).idle
        ([',', ' '].intercalate (Form.entryTexts .readable es) ++ c :: cs) l).rest =
      ((x.within b ((Form.entryItems es).reverse ++ items)).idle (c :: cs)
        (lineAfter l ([',', ' '].intercalate (Form.entryTexts .readable es)))).rest := by
  induction es generalizing items l with
  | nil => rfl
  | cons e es ih =>
    have he := hk e (by simp)
    have he' := hv e (by simp)
    cases es with
    | nil =>
      have h := rest_entry (x := x) he he' hc b items cs l
      simpa [List.intercalate, Form.entryTexts, Form.entryItems] using h
    | cons d es =>
      have ht : [',', ' '].intercalate (Form.entryTexts .readable (e :: d :: es)) =
          e.1.text .readable ++ ' ' :: (e.2.text .readable ++
            ',' :: ' ' :: [',', ' '].intercalate (Form.entryTexts .readable (d :: es))) := by
        simp [List.intercalate, Form.entryTexts]
      have hi : Form.entryItems (e :: d :: es) = e.1 :: e.2 :: Form.entryItems (d :: es) := rfl
      rw [ht]
      simp only [List.append_assoc, List.cons_append]
      rw [rest_entry he he' (by decide), rest_blank rfl, rest_blank rfl,
        ih (fun d hd => hk d (by simp [hd])) (fun d hd => hv d (by simp [hd])), hi]
      simp

theorem rest_literal (b : Bracket) (items : List Form) {f : Form} {inner : List Char}
    (hclose : OpenForm.close? ⟨b, items, 0⟩ = some f)
    (hinner : ((x.within b []).idle (inner ++ b.closer :: cs) (nextLine l b.opener)).rest =
      ((x.within b items).idle (b.closer :: cs) (lineAfter (nextLine l b.opener) inner)).rest) :
    (x.idle (b.opener :: (inner ++ [b.closer]) ++ cs) l).rest =
      x.accept f cs (lineAfter l (b.opener :: (inner ++ [b.closer]))) := by
  have ht : b.opener :: (inner ++ [b.closer]) ++ cs = b.opener :: (inner ++ b.closer :: cs) := by simp
  rw [ht, rest_open, hinner, rest_close hclose]
  simp

theorem closer_mem_boundaries (b : Bracket) : b.closer ∈ Text.boundaries := by
  cases b <;> decide

theorem reads_of_readable {f : Form} (hf : f.Readable) : Reads f := by
  induction hf with
  | atom ha => exact fun x c cs l hc => rest_atom ha (Text.atBoundary_cons hc cs)
  | @list xs _ ih =>
    intro x c cs l hc
    refine rest_literal .round xs.reverse (by simp [OpenForm.close?]) ?_
    rw [Form.itemTexts_eq_map, rest_items ih (closer_mem_boundaries .round), List.append_nil]
  | @vector xs _ ih =>
    intro x c cs l hc
    refine rest_literal .square xs.reverse (by simp [OpenForm.close?]) ?_
    rw [Form.itemTexts_eq_map, rest_items ih (closer_mem_boundaries .square), List.append_nil]
  | @map es hd _ _ hk hv =>
    intro x c cs l hc
    have hm : Form.mapOfItems? (Form.entryItems es) = some (.map es) :=
      Form.ofItemsOnto_entryItems [] hd
    refine rest_literal .curly (Form.entryItems es).reverse
      (by simpa [OpenForm.close?] using hm) ?_
    rw [rest_entries hk hv (closer_mem_boundaries .curly), List.append_nil]

end Source.Context

namespace Form

def listing (fs : List Form) : String := String.join (fs.map fun f => f.render .readable ++ "\n")

theorem toList_listing_cons (f : Form) (fs : List Form) :
    (listing (f :: fs)).toList = f.text .readable ++ '\n' :: (listing fs).toList := by
  simp [listing, render, String.join_cons]

end Form

namespace Source

def Context.outer (name : String) : Context := ⟨name, [], 0⟩

theorem rest_listing {fs : List Form} (hf : ∀ f ∈ fs, f.Readable) (name : String) (l : Nat) :
    ((Context.outer name).idle (Form.listing fs).toList l).rest = (fs, none) := by
  induction fs generalizing l with
  | nil =>
    rw [Reader.rest_eq_onward rfl, Reader.advance]
    rfl
  | cons f fs ih =>
    have hr := ih (fun g hg => hf g (by simp [hg]))
    rw [Form.toList_listing_cons, Context.reads_of_readable (hf f (by simp)) _ _ _ _ (by decide)]
    change (f :: ((Context.outer name).idle ('\n' :: (Form.listing fs).toList) _).rest.1,
      ((Context.outer name).idle ('\n' :: (Form.listing fs).toList) _).rest.2) = _
    rw [Context.rest_blank rfl, hr]

theorem read_listing {fs : List Form} (hf : ∀ f ∈ fs, f.Readable) (name : String) :
    read (Form.listing fs) name = ⟨fs, none⟩ := by
  have hr : (Reader.start (Form.listing fs) name).rest = (fs, none) := rest_listing hf name 1
  simp [read, hr]

end Source

namespace Command

theorem printForms_eq_listing (fs : List Form) (w : World) :
    printForms fs w = .value () (w.print (Form.listing fs)) := by
  induction fs generalizing w with
  | nil => simp [printForms, Form.listing, World.print, Eval.pure_apply]
  | cons f fs ih =>
    have hw : (w.print (f.render .readable ++ "\n")).print (Form.listing fs) =
        w.print (Form.listing (f :: fs)) := by
      simp [World.print, Form.listing, String.join_cons, String.append_assoc]
    rw [← hw, ← ih]
    rfl

theorem dumpFile_eq_listing {w : World} {path text : String} (hw : w.files.read path = .ok text)
    (hr : (Source.read text path).fault? = none) :
    dumpFile path w = .value success (w.print (Form.listing (Source.read text path).forms)) := by
  have hp := printForms_eq_listing (Source.read text path).forms w
  simp only [dumpFile, Eval.bind_apply, Eval.read, hw, hp, hr]
  rfl

end Command

theorem FileTable.read_note (t : FileTable) {path : String} (hp : path ≠ "") (text : String) :
    (t.note path (.content text.toUTF8)).read path = .ok text := by
  have ht : String.fromUTF8? text.toByteArray = some text := dif_pos text.isValidUTF8
  simp [read, find?, note, hp, Bindings.get?_insert_self, ht]

/-- What is read from a text is read again from its listing, which dumping a file with that text prints. -/
theorem Source.read_listing_forms (text name again : String) :
    read (Form.listing (read text name).forms) again = ⟨(read text name).forms, none⟩ ∧
      ∀ w : World, w.files.read name = .ok text → (read text name).fault? = none →
        Command.dumpFile name w =
          .value Command.success (w.print (Form.listing (read text name).forms)) :=
  ⟨read_listing (readable_of_mem_forms text name) again,
    fun _ hw hr => Command.dumpFile_eq_listing hw hr⟩

def Source.mixedText : String :=
  "(f 'x ~@ \"a\\\"b\" \\newline \\A ::k/a -9223372036854775808)\n\x7b1 nil, [true ()] #x\x7d"

theorem Source.read_listing_forms_mixed :
    ∃ w : World, w.files.read "a" = .ok mixedText ∧ (read mixedText "a").fault? = none ∧
      read (Form.listing (read mixedText "a").forms) "b" = ⟨(read mixedText "a").forms, none⟩ ∧
      Command.dumpFile "a" w =
        .value Command.success (w.print (Form.listing (read mixedText "a").forms)) := by
  have hw : (FileTable.empty.note "a" (.content mixedText.toUTF8)).read "a" = .ok mixedText :=
    FileTable.read_note .empty (by decide) mixedText
  have hr : (read mixedText "a").fault? = none := by decide +kernel
  have h := read_listing_forms mixedText "a" "b"
  exact ⟨{ World.empty with files := .note .empty "a" (.content mixedText.toUTF8) }, hw, hr, h.1,
    h.2 _ hw hr⟩

end LazyLisp
