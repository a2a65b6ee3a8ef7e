namespace LazyLisp.Text

def escaped? : Char → Option Char
  | '\\' => some '\\'
  | '\x22' => some '\x22'
  | 'n' => some '\n'
  | 't' => some '\t'
  | 'r' => some '\x0d'
  | 'f' => some '\x0c'
  | 'b' => some '\x08'
  | _ => none

def escapeLetter? : Char → Option Char
  | '\\' => some '\\'
  | '\x22' => some '\x22'
  | '\n' => some 'n'
  | '\t' => some 't'
  | '\x0d' => some 'r'
  | '\x0c' => some 'f'
  | '\x08' => some 'b'
  | _ => none

/-- Interprets the escapes of a string body. An unknown escape, or a backslash at the end, stands for
itself. -/
def unescape : List Char → List Char
  | [] => []
  | '\\' :: c :: rest =>
    match escaped? c with
    | some d => d :: unescape rest
    | none => '\\' :: c :: unescape rest
  | c :: rest => c :: unescape rest

def escape : List Char → List Char
  | [] => []
  | c :: rest =>
    match escapeLetter? c with
    | some d => '\\' :: d :: escape rest
    | none => c :: escape rest

theorem escaped?_escapeLetter? {c d : Char} (h : escapeLetter? c = some d) :
    escaped? d = some c := by
  unfold escapeLetter? at h
  split at h <;> simp_all [escaped?] <;> subst h <;> rfl

theorem unescape_cons_of_ne {c : Char} (h : c ≠ '\\') (rest : List Char) :
    unescape (c :: rest) = c :: unescape rest := by
  rw [unescape.eq_def]
  split <;> simp_all

theorem unescape_escape (text : List Char) : unescape (escape text) = text := by
  induction text with
  | nil => rfl
  | cons c rest ih =>
    cases h : escapeLetter? c with
    | some d => simp [escape, h, unescape, escaped?_escapeLetter? h, ih]
    | none =>
      have hc : c ≠ '\\' := by
        intro hc
        subst hc
        simp [escapeLetter?] at h
      simp [escape, h, unescape_cons_of_ne hc, ih]

theorem unescape_of_not_mem {body : List Char} (h : '\\' ∉ body) : unescape body = body := by
  induction body with
  | nil => rfl
  | cons c rest ih =>
    simp only [List.mem_cons, not_or] at h
    rw [unescape_cons_of_ne (Ne.symm h.1), ih h.2]

end LazyLisp.Text
