/-!
# Results with a log

A computation that reports events while it runs and may fail. The events stay in the log when the
computation fails later on. `Logged` is a monad: the second computation of a bind runs only if the
first one succeeded, and its events follow those of the first.
-/

namespace TensorMechanics

/-- A result, or a failure, and the events before it. -/
structure Logged (ω ε α : Type) where
  /-- The events, the earliest first. -/
  log : List ω
  /-- The result, or the failure that ended the computation. -/
  result : Except ε α

namespace Logged

variable {ω ε α β : Type}

/-- A result without events. -/
def ofResult (result : Except ε α) : Logged ω ε α := ⟨[], result⟩

/-- Reports an event. -/
def report (event : ω) : Logged ω ε Unit := ⟨[event], .ok ()⟩

/-- A failure. -/
def fail (error : ε) : Logged ω ε α := ⟨[], .error error⟩

/-- Runs a computation on the result of another one. -/
def bind (x : Logged ω ε α) (f : α → Logged ω ε β) : Logged ω ε β :=
  match x.result with
  | .ok a => ⟨x.log ++ (f a).log, (f a).result⟩
  | .error error => ⟨x.log, .error error⟩

instance : Monad (Logged ω ε) where
  pure a := ofResult (.ok a)
  bind := bind

/-- Runs a computation on every item in order and collects the results, until one fails. -/
def traverse (f : α → Logged ω ε β) : List α → Logged ω ε (List β)
  | [] => pure []
  | x :: xs => do
    let y ← f x
    let ys ← traverse f xs
    return y :: ys

end Logged

/-- How serious an event is. -/
inductive Level where
  | debug
  | warning
  deriving DecidableEq, Repr

/-- The word that starts the line of an event. -/
def Level.word : Level → String
  | .debug => "DEBUG"
  | .warning => "WARN"

/-- The line of an event. -/
def Level.line (level : Level) (text : String) : String := level.word ++ ": " ++ text

end TensorMechanics
