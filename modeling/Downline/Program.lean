import Downline.Store.Call

/-!
Programs that work on a store one call at a time. A program is data: what it asks next, and how it
goes on for each answer. So it can be run against any store, and its calls can be reasoned about
without one.
-/

namespace Downline

/-- A program with a result of type `α`. -/
inductive Prog (α : Type) where
  | done (a : α)
  /-- Asks a call and goes on with its answer or with the error it fails with. -/
  | ask (c : Call) (next : Except StoreError c.Answer → Prog α)
  | abort (reason : Panic)

namespace Prog

/-- Runs one program after another. -/
def bind {α β : Type} : Prog α → (α → Prog β) → Prog β
  | done a, f => f a
  | ask c next, f => ask c fun r => (next r).bind f
  | abort reason, _ => abort reason

instance : Monad Prog where
  pure := done
  bind := bind

def request (c : Call) : Prog (Except StoreError c.Answer) :=
  ask c done

/-- Runs a program with nothing else going on between its calls. -/
def run {σ α : Type} (S : Store σ) : Prog α → σ → Except Halt α × σ
  | done a, s => (.ok a, s)
  | abort reason, s => (.error (.panic reason), s)
  | ask c next, s =>
    match S.call c s with
    | (.ok a, s') => (next (.ok a)).run S s'
    | (.error (.error e), s') => (next (.error e)).run S s'
    | (.error (.halt h), s') => (.error h, s')

end Prog

end Downline
