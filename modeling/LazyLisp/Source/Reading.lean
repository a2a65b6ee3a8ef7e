import LazyLisp.Source.Weight

namespace LazyLisp.Source

namespace Reader

def finish (r : Reader) : Option (Except Reason Form) × Reader :=
  match r.flush with
  | .form f r => (some (.ok f), r)
  | .fault reason r => (some (.error reason), r)
  | .more r => (r.complaint?.map .error, r)

def advance (r : Reader) : Option (Except Reason Form) × Reader :=
  match _ht : r.cursor.take? with
  | none => r.finish
  | some (c, s) =>
    match _hs : { r with cursor := s }.step c with
    | .more r' => advance r'
    | .form f r' => (some (.ok f), r')
    | .fault reason r' => (some (.error reason), r')
termination_by r.weight
decreasing_by
  have h : r'.weight < { r with cursor := s }.weight + 3 := weight_step (by rw [_hs]; rfl)
  rw [weight_of_take? _ht] at h
  exact h

def next (r : Reader) : Option (Except Fault Form) × Reader :=
  if r.failed then (none, r)
  else
    match r.advance with
    | (none, r') => (none, r')
    | (some (.ok f), r') => (some (.ok f), r')
    | (some (.error reason), r') =>
      (some (.error ⟨r'.line, r'.name, reason⟩), { r' with failed := true })

theorem weight_finish {r s : Reader} {f : Form} (h : r.finish = (some (.ok f), s)) :
    s.weight < r.weight := by
  unfold finish at h
  split at h
  · next hf =>
    cases h
    exact weight_flush hf
  · cases h
  · next r' _ => cases hc : r'.complaint? <;> simp [hc] at h

theorem weight_advance {r s : Reader} {f : Form} (h : r.advance = (some (.ok f), s)) :
    s.weight < r.weight := by
  fun_induction advance r with
  | case1 r ht => exact weight_finish h
  | case2 r c t ht r' hs ih =>
    have h' : r'.weight < { r with cursor := t }.weight + 3 := weight_step (by rw [hs]; rfl)
    rw [weight_of_take? ht] at h'
    exact Nat.lt_trans (ih h) h'
  | case3 r c t ht f' r' hs =>
    cases h
    have h' : s.weight < { r with cursor := t }.weight + 3 := weight_step (by rw [hs]; rfl)
    rwa [weight_of_take? ht] at h'
  | case4 r c t ht reason r' hs => cases h

theorem weight_next {r s : Reader} {f : Form} (h : r.next = (some (.ok f), s)) :
    s.weight < r.weight := by
  unfold next at h
  split at h
  · cases h
  · split at h
    · cases h
    · next ha =>
      cases h
      exact weight_advance ha
    · cases h

def rest (r : Reader) : List Form × Option Fault :=
  match _h : r.next with
  | (none, _) => ([], none)
  | (some (.error e), _) => ([], some e)
  | (some (.ok f), r') =>
    let tail := rest r'
    (f :: tail.1, tail.2)
termination_by r.weight
decreasing_by exact weight_next _h

end Reader

structure Reading where
  forms : List Form
  fault? : Option Fault

def read (text : String) (name : String) : Reading :=
  let forms := (Reader.start text name).rest
  ⟨forms.1, forms.2⟩

def readFirst (text : String) : Except Fault Form :=
  match (Reader.start text "string").next with
  | (some result, _) => result
  | (none, r) => .error ⟨r.line, r.name, .nothingToRead⟩

end LazyLisp.Source
