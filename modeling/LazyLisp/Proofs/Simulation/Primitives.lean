import LazyLisp.Proofs.Simulation.Sequences

namespace LazyLisp.Simulation

variable {D : Simulation} {k k' : Kernel} {i : D.Place}

theorem rel_prepend (x v : Value) : D.Rel i (Kernel.prepend x v) (Kernel.prepend x v) := by
  unfold Kernel.prepend
  split
  · exact D.rel_pure _
  · exact D.rel_bind (rel_requireSeqable v) fun _ => D.rel_pure _

theorem rel_iterate (f x : Value) : D.Rel i (Kernel.iterate f x) (Kernel.iterate f x) :=
  D.rel_bind (rel_requireCallable f) fun f => D.rel_newCell (.iterating f x)

theorem rel_repetition (n : Option Value) (x : Value) :
    D.Rel i (Kernel.repetition n x) (Kernel.repetition n x) := by
  cases n with
  | none => exact D.rel_newCell _
  | some n => exact D.rel_bind (rel_requireInt n) fun n => D.rel_newCell _

theorem rel_repeatedly (n : Option Value) (f : Value) :
    D.Rel i (Kernel.repeatedly n f) (Kernel.repeatedly n f) := by
  cases n with
  | none => exact D.rel_bind (rel_requireCallable f) fun f => D.rel_newCell _
  | some n =>
    refine D.rel_bind (rel_requireInt n) fun n => ?_
    exact D.rel_bind (rel_requireCallable f) fun f => D.rel_newCell _

theorem rel_repeatStep (x : Value) (remaining : Option Int64) :
    D.Rel i (Kernel.repeatStep x remaining) (Kernel.repeatStep x remaining) :=
  rel_ite (D.rel_pure _) (D.rel_bind (D.rel_newCell _) fun _ => D.rel_pure _)

theorem rel_isRealized (v : Value) : D.Rel i (Kernel.isRealized v) (Kernel.isRealized v) := by
  cases v with
  | lazy cell =>
    have hd : DependsOn (D.Agrees i) fun w => w.isRealized cell := fun w fs _ => rfl
    exact D.rel_bind (D.rel_look hd (fun _ _ => rfl) fun _ _ _ hr => hr cell) fun _ => D.rel_pure _
  | _ => exact D.rel_pure _

theorem rel_integers (vs : List Value) :
    D.Rel i (Arithmetic.integers vs) (Arithmetic.integers vs) := by
  induction vs with
  | nil => exact D.rel_pure []
  | cons v vs ih => exact D.rel_bind (rel_requireInt v) fun _ => D.rel_bind ih fun _ => D.rel_pure _

theorem rel_compute (f : List Int64 → Int64) (vs : List Value) :
    D.Rel i (Arithmetic.compute f vs) (Arithmetic.compute f vs) :=
  D.rel_bind (rel_integers vs) fun _ => D.rel_pure _

theorem rel_test (holds : Int64 → Int64 → Bool) (vs : List Value) :
    D.Rel i (Arithmetic.test holds vs) (Arithmetic.test holds vs) :=
  D.rel_bind (rel_integers vs) fun _ => D.rel_pure _

theorem rel_shift (amount : Int64) (v : Value) :
    D.Rel i (Arithmetic.shift amount v) (Arithmetic.shift amount v) :=
  D.rel_bind (rel_requireInt v) fun _ => D.rel_pure _

theorem rel_readString (v : Value) : D.Rel i (Kernel.readString v) (Kernel.readString v) := by
  refine D.rel_bind (rel_requireString v) fun text => ?_
  cases Source.readFirst text with
  | ok f => exact D.rel_pure f.toValue
  | error fault => exact D.rel_fail rfl

namespace Follows

section

variable (hk : D.Follows D.inner k k')
include hk

theorem rel_count (v : Value) : D.Rel i (k.count v) (k'.count v) := by
  unfold Kernel.count
  split
  · exact D.rel_pure _
  · exact D.rel_pure _
  · exact D.rel_pure _
  · exact D.rel_pure _
  · refine D.rel_bind (rel_requireSeqable v) fun _ => ?_
    exact D.rel_bind (hk.rel_foldSeq (fun _ _ => D.rel_pure _) hk.fuel 0 v) fun _ => D.rel_pure _

theorem rel_seqOf (v : Value) : D.Rel i (k.seqOf v) (k'.seqOf v) := by
  refine D.rel_bind (hk.rel_force hk.fuel v) fun v => ?_
  split
  · exact D.rel_pure _
  · exact D.rel_pure _
  · exact D.rel_pure _
  · exact D.rel_pure _
  · exact D.rel_bind (hk.rel_collect v) fun _ => D.rel_pure _

theorem rel_first (v : Value) : D.Rel i (k.first v) (k'.first v) := by
  refine D.rel_bind (rel_requireSeqable v) fun _ => ?_
  refine D.rel_bind (hk.rel_uncons hk.fuel v) fun next => ?_
  cases next <;> exact D.rel_pure _

theorem rel_rest (v : Value) : D.Rel i (k.rest v) (k'.rest v) := by
  refine D.rel_bind (hk.rel_force hk.fuel v) fun v => ?_
  split
  · exact D.rel_pure _
  · exact D.rel_pure _
  · refine D.rel_bind (rel_requireSeqable v) fun _ => ?_
    refine D.rel_bind (hk.rel_uncons hk.fuel v) fun next => ?_
    cases next with
    | none => exact D.rel_pure _
    | some next => exact D.rel_bind (hk.rel_elements next.2) fun _ => D.rel_pure _

theorem rel_addEntries (es : List (Value × Value)) (items : List Value) :
    D.Rel i (k.addEntries es items) (k'.addEntries es items) := by
  induction items generalizing es with
  | nil => exact D.rel_pure es
  | cons item items ih =>
    refine D.rel_bind (hk.rel_collect item) fun xs => ?_
    split
    · exact D.rel_bind (hk.rel_putEntry es _ _) fun es => ih es
    · exact D.rel_fail rfl

theorem rel_conj (coll : Value) (items : List Value) :
    D.Rel i (k.conj coll items) (k'.conj coll items) := by
  unfold Kernel.conj
  split
  · exact D.rel_pure _
  · exact D.rel_bind (hk.rel_addEntries _ items) fun _ => D.rel_pure _
  · exact D.rel_pure _
  · exact D.rel_pure _
  · exact D.rel_pure _
  · exact D.rel_pure _
  · exact D.rel_fail rfl

theorem rel_take (n v : Value) : D.Rel i (k.take n v) (k'.take n v) := by
  refine D.rel_bind (rel_requireInt n) fun n => ?_
  refine D.rel_bind (rel_requireSeqable v) fun _ => ?_
  exact D.rel_bind (hk.rel_firstElements _ [] v) fun _ => D.rel_pure _

theorem rel_isEmpty (v : Value) : D.Rel i (k.isEmpty v) (k'.isEmpty v) := by
  unfold Kernel.isEmpty
  split
  · exact D.rel_pure _
  · refine D.rel_bind (rel_requireSeqable v) fun _ => ?_
    exact D.rel_bind (hk.rel_uncons hk.fuel v) fun _ => D.rel_pure _

theorem rel_hashMap (vs : List Value) : D.Rel i (k.hashMap vs) (k'.hashMap vs) :=
  rel_ite (D.rel_bind (hk.rel_putPairs [] vs) fun _ => D.rel_pure _) (D.rel_fail rfl)

theorem rel_assoc (coll : Value) (pairs : List Value) :
    D.Rel i (k.assoc coll pairs) (k'.assoc coll pairs) := by
  have hp (es : List (Value × Value)) : D.Rel i
      (if pairs.length % 2 = 0 then k.putPairs es pairs >>= fun es => pure (Value.map es)
        else Eval.fail (.missingArgument Primitive.assoc.name (pairs.length + 1)))
      (if pairs.length % 2 = 0 then k'.putPairs es pairs >>= fun es => pure (Value.map es)
        else Eval.fail (.missingArgument Primitive.assoc.name (pairs.length + 1))) :=
    rel_ite (D.rel_bind (hk.rel_putPairs es pairs) fun _ => D.rel_pure _) (D.rel_fail rfl)
  cases coll with
  | map es => exact hp es
  | atom a =>
    cases a with
    | nil => exact hp []
    | _ => exact D.rel_fail (e := .typeMismatch .map) rfl
  | _ => exact D.rel_fail (e := .typeMismatch .map) rfl

theorem rel_get (coll key default : Value) :
    D.Rel i (k.get coll key default) (k'.get coll key default) := by
  unfold Kernel.get
  split
  · exact D.rel_bind (hk.rel_getEntry _ key) fun _ => D.rel_pure _
  · exact D.rel_pure _
  · exact D.rel_pure _

theorem rel_printLine (style : Style) (vs : List Value) :
    D.Rel i (k.printLine style vs) (k'.printLine style vs) := by
  refine D.rel_bind (hk.rel_renderAll style " " vs) fun text => ?_
  exact D.rel_bind (D.rel_change (c := .print (text ++ "\n")) rfl) fun _ => D.rel_pure _

end

section

variable (h : D.Follows i k k')
include h

theorem rel_iterateStep (f : Callable Value) (x : Value) :
    D.Rel i (k.iterateStep f x) (k'.iterateStep f x) := by
  refine D.rel_bind (h.rel_apply f [x]) fun next => ?_
  exact D.rel_bind (D.rel_newCell _) fun _ => D.rel_pure _

theorem rel_callStep (f : Callable Value) (remaining : Option Int64) :
    D.Rel i (k.callStep f remaining) (k'.callStep f remaining) := by
  refine rel_ite (D.rel_pure _) (D.rel_bind (h.rel_apply f []) fun x => ?_)
  exact D.rel_bind (D.rel_newCell _) fun _ => D.rel_pure _

theorem rel_runForms (hs : ∀ x, D.Sees i x) (last : Value) (fs : List Form) :
    D.Rel i (k.runForms last fs) (k'.runForms last fs) := by
  induction fs generalizing last with
  | nil => exact D.rel_pure last
  | cons f fs ih => exact D.rel_bind (h.eval f.toValue fun x _ => hs x) fun v => ih v

theorem rel_runText (hs : ∀ x, D.Sees i x) (text name : String) :
    D.Rel i (k.runText text name) (k'.runText text name) := by
  refine D.rel_bind (h.rel_runForms hs .nil _) fun v => ?_
  cases (Source.read text name).fault? with
  | none => exact D.rel_pure v
  | some fault => exact D.rel_fail rfl

theorem rel_loadFile (hs : ∀ x, D.Sees i x) (path : String) :
    D.Rel i (k.loadFile path) (k'.loadFile path) := by
  have hd : DependsOn (D.Agrees i) fun w => w.files.read path := fun w fs _ => rfl
  refine D.rel_bind (D.rel_look hd (fun _ _ => rfl) fun _ _ _ _ => rfl) fun result => ?_
  cases result with
  | ok text => exact D.rel_keepingNamespace (h.rel_runText hs text path)
  | error e => exact D.rel_bind (D.rel_change (c := .want path) rfl) fun _ => D.rel_fail rfl

end

section

variable (h : D.Follows i k k') (hk : D.Follows D.inner k k')
include h hk

theorem rel_reduceFrom (f : Callable Value) (init v : Value) :
    D.Rel i (k.reduceFrom f init v) (k'.reduceFrom f init v) :=
  hk.rel_foldSeq (fun acc x => h.rel_apply f [acc, x]) hk.fuel init v

theorem rel_reduce (f v : Value) : D.Rel i (k.reduce f v) (k'.reduce f v) := by
  refine D.rel_bind (rel_requireCallable f) fun f => ?_
  refine D.rel_bind (rel_requireSeqable v) fun _ => ?_
  refine D.rel_bind (hk.rel_uncons hk.fuel v) fun next => ?_
  cases next with
  | none => exact h.rel_apply f []
  | some next => exact h.rel_reduceFrom hk f next.1 next.2

theorem rel_reduceWith (f init v : Value) : D.Rel i (k.reduceWith f init v) (k'.reduceWith f init v) := by
  refine D.rel_bind (rel_requireCallable f) fun f => ?_
  exact D.rel_bind (rel_requireSeqable v) fun _ => h.rel_reduceFrom hk f init v

theorem rel_searchWith (f : Callable Value) {n n' : Nat} (hn : D.Budget n n') (v : Value) :
    D.Rel i (k.searchWith f n v) (k'.searchWith f n' v) := by
  induction n generalizing n' v with
  | zero => exact hn.spent (m := fun n => k'.searchWith f n v) rfl
  | succ n ih =>
    obtain ⟨n', rfl, hl⟩ := hn.succ
    refine D.rel_bind (hk.rel_uncons hk.fuel v) fun next => ?_
    cases next with
    | none => exact D.rel_pure _
    | some next =>
      refine D.rel_bind (h.rel_apply f [next.1]) fun result => ?_
      exact rel_ite (D.rel_pure result) (ih hl next.2)

theorem rel_findTruthy (f v : Value) : D.Rel i (k.findTruthy f v) (k'.findTruthy f v) := by
  refine D.rel_bind (rel_requireCallable f) fun f => ?_
  exact D.rel_bind (rel_requireSeqable v) fun _ => h.rel_searchWith hk f hk.fuel v

theorem rel_runPrimitive {p : Primitive} (hp : p = .loadFile → ∀ x, D.Sees i x) (vs : List Value) :
    D.Rel i (k.runPrimitive p vs) (k'.runPrimitive p vs) := by
  unfold Kernel.runPrimitive
  split
  · exact hk.rel_count _
  · exact hk.rel_seqOf _
  · exact hk.rel_first _
  · exact hk.rel_rest _
  · exact D.rel_bind (hk.rel_rest _) fun rest => hk.rel_seqOf rest
  · exact rel_prepend _ _
  · exact hk.rel_conj _ _
  · exact hk.rel_take _ _
  · exact h.rel_reduce hk _ _
  · exact h.rel_reduceWith hk _ _ _
  · exact h.rel_findTruthy hk _ _
  · exact D.rel_pure _
  · exact rel_iterate _ _
  · exact rel_repetition none _
  · exact rel_repetition (some _) _
  · exact rel_repeatedly none _
  · exact rel_repeatedly (some _) _
  · exact rel_isRealized _
  · exact D.rel_pure _
  · exact D.rel_pure _
  · exact hk.rel_hashMap _
  · exact hk.rel_assoc _ _
  · exact hk.rel_get _ _ .nil
  · exact hk.rel_get _ _ _
  · exact D.rel_bind (hk.rel_renderAll .direct "" _) fun _ => D.rel_pure _
  · exact D.rel_bind (hk.rel_renderAll .readable " " _) fun _ => D.rel_pure _
  · exact hk.rel_printLine .direct _
  · exact hk.rel_printLine .readable _
  · exact rel_readString _
  · exact D.rel_pure _
  · exact hk.rel_isEmpty _
  · exact D.rel_pure _
  · exact rel_compute _ _
  · exact rel_compute _ _
  · exact rel_compute _ _
  · exact rel_shift 1 _
  · exact rel_shift (-1) _
  · exact rel_test _ _
  · exact rel_test _ _
  · exact rel_test _ _
  · exact rel_test _ _
  · exact D.rel_bind (rel_requireString _) fun path => h.rel_loadFile (hp rfl) path
  · exact D.rel_fail rfl

theorem rel_callPrimitive {p : Primitive} (hp : p = .loadFile → ∀ x, D.Sees i x) {a : Args}
    (ha : D.Admits i a) : D.Rel i (k.callPrimitive p a) (k'.callPrimitive p a) := by
  refine D.rel_bind (h.rel_values ha) fun vs => ?_
  exact D.rel_bind (rel_requireArity _ _ _) fun _ => h.rel_runPrimitive hk hp vs

end

end Follows

end LazyLisp.Simulation
