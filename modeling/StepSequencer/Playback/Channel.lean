/-!
# Channels

A channel hands messages on in the order in which they were sent. It may hold a limited number of
messages, and nothing can be sent once its receiver is gone.
-/

namespace StepSequencer

/-- The messages under way, from the oldest. -/
structure Channel (α : Type) where
  /-- How many messages fit, if there is a limit. -/
  capacity : Option Nat
  waiting : List α
  /-- Whether there still is a receiver. -/
  isOpen : Bool

/-- Why a message was not sent. -/
inductive SendError where
  | full
  | disconnected
  deriving DecidableEq

/-- The wording of the error. -/
def SendError.message : SendError → String
  | .full => "sending on a full channel"
  | .disconnected => "sending on a disconnected channel"

namespace Channel

variable {α : Type} (c : Channel α)

/-- A channel with nothing under way. -/
def empty (capacity : Option Nat) : Channel α := ⟨capacity, [], true⟩

/-- Whether no further message fits. -/
def isFull : Bool :=
  match c.capacity with
  | some capacity => decide (capacity ≤ c.waiting.length)
  | none => false

/-- The channel with a message more. -/
def push (message : α) : Channel α := { c with waiting := c.waiting ++ [message] }

/-- The channel after sending without waiting. A missing receiver is reported before
a full channel. -/
def send (message : α) : Except SendError (Channel α) :=
  if !c.isOpen then .error .disconnected
  else if c.isFull then .error .full
  else .ok (c.push message)

/-- The channel after all its messages were received. -/
def drained : Channel α := { c with waiting := [] }

/-- The channel without its receiver. The messages under way are lost. -/
def closed : Channel α := { c with waiting := [], isOpen := false }

end Channel

end StepSequencer
