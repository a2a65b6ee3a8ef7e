import LazyLisp.Library
import LazyLisp.Proofs.Simulation.Evaluation

namespace LazyLisp

variable {α : Type}

def Outcome.world? : Outcome α → Option World
  | value _ w => some w
  | failure _ w => some w
  | outOfFuel => none

/-- What a host asks of the interpreter. Comparing for a yes or no, as `same` does, hides failures, and so
does writing. -/
inductive Request where
  | eval (form : Value)
  | call (f : Callable Value) (args : List Value)
  | load (path : String)
  | bind (pattern v : Value)
  | write (style : Style) (v : Value)
  | explain (e : Failure)
  | compare (a b : Value)
  | same (a b : Value)
  | gather (v : Value)
  | install (library : Library)
  | drop

def Request.after (k : Kernel) (w : World) : Request → Option World
  | eval form => (k.eval form w).world?
  | call f args => (k.apply f args w).world?
  | load path => (k.loadFile path w).world?
  | bind pattern v => (k.destructure pattern v w).world?
  | write style v => (k.render style v w).world?
  | explain e => (k.message e w).world?
  | compare a b => (k.isEqual a b w).world?
  | same a b => (k.isSame a b w).world?
  | gather v => (k.collect v w).world?
  | install library => (library.install w).world?
  | drop => some w.dropEnvironment

def Request.Related (rel : {α : Type} → Eval α → Eval α → Prop) (k k' : Kernel) : Request → Prop
  | eval form => rel (k.eval form) (k'.eval form)
  | call f args => rel (k.apply f args) (k'.apply f args)
  | load path => rel (k.loadFile path) (k'.loadFile path)
  | bind pattern v => rel (k.destructure pattern v) (k'.destructure pattern v)
  | write style v => rel (k.render style v) (k'.render style v)
  | explain e => rel (k.message e) (k'.message e)
  | compare a b => rel (k.isEqual a b) (k'.isEqual a b)
  | same a b => rel (k.isSame a b) (k'.isSame a b)
  | gather v => rel (k.collect v) (k'.collect v)
  | install library => rel library.install library.install
  | drop => True

namespace Simulation

variable {D : Simulation} {k k' : Kernel}

theorem rel_installAll (hg : D.Tables) (fs : List (Callable Value)) {i : D.Place} :
    D.Rel i (Library.installAll fs) (Library.installAll fs) := by
  induction fs with
  | nil => exact D.rel_pure ()
  | cons f fs ih =>
    refine D.rel_bind (D.rel_newCallable f) fun v => ?_
    exact D.rel_bind (hg.change (.define f.name v)) fun _ => ih

namespace Follows

theorem rel_render (hk : D.Follows D.inner k k') {i : D.Place} (style : Style) (v : Value) :
    D.Rel i (k.render style v) (k'.render style v) :=
  D.rel_bind (hk.rel_write hk.fuel style v) fun _ => D.rel_pure _

theorem rel_install (hb : D.Follows D.inner (Kernel.withFuel budget) (Kernel.withFuel budget)) (hg : D.Tables)
    (library : Library) : D.Rel D.inner library.install library.install := by
  cases library with
  | core => exact D.rel_bind (rel_installAll hg _) fun _ => rel_installAll hg _
  | math => exact rel_installAll hg _
  | outside => exact rel_installAll hg _
  | prelude => exact D.rel_bind (hb.rel_runForms D.sees_inner .nil Prelude.forms) fun _ => D.rel_pure _

theorem request (hk : D.Follows D.inner k k')
    (hb : D.Follows D.inner (Kernel.withFuel budget) (Kernel.withFuel budget)) (hg : D.Tables)
    (ho : ∀ {α : Type} {m m' : Eval α}, D.Open D.inner m m' → D.Rel D.inner m m') (r : Request) :
    r.Related (D.Rel D.inner) k k' := by
  cases r with
  | eval form => exact hk.eval form (shows_inner form)
  | call f args => exact hk.rel_apply f args
  | load path => exact hk.rel_loadFile D.sees_inner path
  | bind pattern v => exact ho (hk.open_destructure pattern v)
  | write style v => exact hk.rel_render style v
  | explain e => exact rel_describe (fun v => hk.rel_render .readable v) e
  | compare a b => exact hk.rel_isEqual a b
  | same a b => exact hk.rel_isSame a b
  | gather v => exact hk.rel_collect v
  | install library => exact hb.rel_install hg library
  | drop => trivial

end Follows

end Simulation

end LazyLisp
