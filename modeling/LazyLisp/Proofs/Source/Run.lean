import LazyLisp.Source.Reading

namespace LazyLisp.Source

def nextLine (l : Nat) (c : Char) : Nat := if c = '\n' then l + 1 else l

def lineAfter (l : Nat) (cs : List Char) : Nat := cs.foldl nextLine l

@[simp] theorem lineAfter_nil (l : Nat) : lineAfter l [] = l := rfl

@[simp] theorem lineAfter_cons (l : Nat) (c : Char) (cs : List Char) :
    lineAfter l (c :: cs) = lineAfter (nextLine l c) cs := rfl

@[simp] theorem lineAfter_append (l : Nat) (cs ds : List Char) :
    lineAfter l (cs ++ ds) = lineAfter (lineAfter l cs) ds := by
  simp [lineAfter]

theorem lineAfter_eq_add_count (l : Nat) (cs : List Char) : lineAfter l cs = l + cs.count '\n' := by
  induction cs generalizing l with
  | nil => rfl
  | cons c cs ih =>
    rw [lineAfter_cons, ih, nextLine, List.count_cons]
    by_cases hc : c = '\n'
    · simp only [hc, if_true, beq_self_eq_true]
      omega
    · simp [hc]

namespace Reader

def resume : Step → List Form × Option Fault
  | .more r => r.rest
  | .form f r => (f :: r.rest.1, r.rest.2)
  | .fault reason r => ([], some ⟨r.line, r.name, reason⟩)

def outcome : Step → Option (Except Reason Form) × Reader
  | .more r => r.advance
  | .form f r => (some (.ok f), r)
  | .fault reason r => (some (.error reason), r)

theorem advance_of_take? {r : Reader} {s : Cursor} {c : Char} (ht : r.cursor.take? = some (c, s)) :
    r.advance = outcome ({ r with cursor := s }.step c) := by
  rw [advance]
  split
  · simp_all
  next c' s' ht' =>
    obtain ⟨rfl, rfl⟩ : c = c' ∧ s = s' := by simpa [ht] using ht'
    split <;> simp_all [outcome]

theorem advance_of_end {r : Reader} (ht : r.cursor.take? = none) : r.advance = r.finish := by
  rw [advance]
  split
  · rfl
  · next h => simp [ht] at h

def onward : Option (Except Reason Form) × Reader → List Form × Option Fault
  | (none, _) => ([], none)
  | (some (.error reason), s) => ([], some ⟨s.line, s.name, reason⟩)
  | (some (.ok f), s) => (f :: s.rest.1, s.rest.2)

theorem rest_eq_onward {r : Reader} (hf : r.failed = false) : r.rest = onward r.advance := by
  rw [rest]
  rcases ha : r.advance with ⟨_ | (reason | f), s⟩ <;> split <;>
    simp_all [onward, next]

theorem onward_outcome {st : Step} (h : ∀ t, st.reader? = some t → t.failed = false) :
    onward (outcome st) = resume st := by
  cases st with
  | more t => exact (rest_eq_onward (h t rfl)).symm
  | form f t => rfl
  | fault reason t => rfl

theorem rest_of_end {r : Reader} (hf : r.failed = false) (ht : r.cursor.take? = none) :
    r.rest = onward r.finish := by
  rw [rest_eq_onward hf, advance_of_end ht]

end Reader

structure Context where
  name : String
  stack : List OpenForm
  quotes : Nat

namespace Context

def reader (x : Context) (mode : Mode) (token cs : List Char) (l : Nat) : Reader :=
  ⟨x.name, ⟨cs, none, l⟩, mode, token, x.stack, x.quotes, false⟩

def idle (x : Context) (cs : List Char) (l : Nat) : Reader := x.reader .normal [] cs l

variable {x y : Context} {mode mode' : Mode} {token token' cs cs' : List Char} {l l' : Nat} {c : Char}

theorem rest_eq_onward_outcome (x : Context) (mode : Mode) (token : List Char) (c : Char)
    (cs : List Char) (l : Nat) :
    (x.reader mode token (c :: cs) l).rest =
      Reader.onward (Reader.outcome ((x.reader mode token cs (nextLine l c)).step c)) := by
  have ha : (x.reader mode token (c :: cs) l).advance =
      Reader.outcome ((x.reader mode token cs (nextLine l c)).step c) :=
    Reader.advance_of_take? (r := x.reader mode token (c :: cs) l) rfl
  rw [← ha]
  exact Reader.rest_eq_onward rfl

theorem rest_step {st : Step} (hs : (x.reader mode token cs (nextLine l c)).step c = st)
    (hst : ∀ t, st.reader? = some t → t.failed = false) :
    (x.reader mode token (c :: cs) l).rest = Reader.resume st := by
  rw [rest_eq_onward_outcome, hs, Reader.onward_outcome hst]

theorem rest_more
    (hs : (x.reader mode token cs (nextLine l c)).step c = .more (y.reader mode' token' cs' l')) :
    (x.reader mode token (c :: cs) l).rest = (y.reader mode' token' cs' l').rest :=
  rest_step hs (by rintro t ⟨⟩; rfl)

/-- A character that was handed back is read as if it had not been taken. -/
theorem rest_hold (x : Context) (c : Char) (cs : List Char) (l : Nat) :
    ((x.idle cs (nextLine l c)).hold c).rest = (x.idle (c :: cs) l).rest := by
  have hh : ((x.idle cs (nextLine l c)).hold c).advance =
      Reader.outcome ((x.idle cs (nextLine l c)).step c) :=
    Reader.advance_of_take? rfl
  rw [Reader.rest_eq_onward rfl, hh, idle, idle, rest_eq_onward_outcome]

theorem rest_idle_nil (x : Context) (l : Nat) :
    (x.idle [] l).rest = ([], (x.idle [] l).complaint?.map fun reason => ⟨l, x.name, reason⟩) := by
  have hf : (x.idle [] l).finish = ((x.idle [] l).complaint?.map .error, x.idle [] l) := rfl
  rw [Reader.rest_of_end rfl rfl, hf]
  cases (x.idle [] l).complaint? <;> rfl

def accept (x : Context) (f : Form) (cs : List Char) (l : Nat) : List Form × Option Fault :=
  Reader.resume ((x.idle cs l).emit f)

theorem failed_emit {f : Form} {r : Reader} (h : ((x.idle cs l).emit f).reader? = some r) :
    r.failed = false := by
  unfold Reader.emit at h
  split at h <;> cases h <;> rfl

theorem rest_emit {f : Form} (hs : (x.reader mode token cs (nextLine l c)).step c =
    (x.idle cs' l').emit f) : (x.reader mode token (c :: cs) l).rest = x.accept f cs' l' :=
  rest_step hs fun _ => failed_emit

theorem resume_emit_hold (f : Form) (cs : List Char) :
    Reader.resume (((x.idle cs (nextLine l c)).hold c).emit f) = x.accept f (c :: cs) l := by
  obtain ⟨name, stack, quotes⟩ := x
  cases stack with
  | nil => exact congrArg (fun p => (f.quotedTimes quotes :: p.1, p.2)) (rest_hold ⟨name, [], 0⟩ c cs l)
  | cons o stack => exact rest_hold ⟨name, ⟨o.bracket, f.quotedTimes o.quotes :: o.items, 0⟩ :: stack, quotes⟩ c cs l

theorem rest_emit_hold {f : Form} (hs : (x.reader mode token cs (nextLine l c)).step c =
    ((x.idle cs (nextLine l c)).hold c).emit f) :
    (x.reader mode token (c :: cs) l).rest = x.accept f (c :: cs) l := by
  rw [← resume_emit_hold]
  refine rest_step hs fun t ht => ?_
  unfold Reader.emit at ht
  split at ht <;> cases ht <;> rfl

end Context
end LazyLisp.Source
