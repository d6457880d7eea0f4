import Zcm.Util.Queue

namespace Zcm.Util

variable {α : Type}

/-- A queue under its own mutex, with the flag that wakes up whoever waits on it. Each operation is
one critical section; one that waits for a condition first has no result until the condition holds. -/
structure ThreadsafeQueue (α : Type) where
  queue : Queue α
  disabled : Bool

namespace ThreadsafeQueue

def new (size : Nat) : ThreadsafeQueue α := ⟨Queue.new size, false⟩

def getCapacity (t : ThreadsafeQueue α) : Nat := t.queue.capacity

def setCapacity (t : ThreadsafeQueue α) (capacity : Nat) : ThreadsafeQueue α :=
  { t with queue := t.queue.setCapacity capacity }

def hasMessage (t : ThreadsafeQueue α) : Bool := t.queue.hasMessage

def numMessages (t : ThreadsafeQueue α) : Nat := t.queue.numMessages

/-- No result while the caller has to wait; then whether the element was pushed. -/
def push (t : ThreadsafeQueue α) (x : α) : Option (Bool × ThreadsafeQueue α) :=
  if t.disabled || t.queue.hasFreeSpace then
    if !t.queue.hasFreeSpace then some (false, t)
    else some (true, { t with queue := t.queue.push x })
  else none

def pushIfRoom (t : ThreadsafeQueue α) (x : α) : Bool × ThreadsafeQueue α :=
  if !t.queue.hasFreeSpace then (false, t)
  else (true, { t with queue := t.queue.push x })

inductive Top (α : Type)
  | null
  | elt (cell : Option α)

def top (t : ThreadsafeQueue α) : Option (Top α) :=
  if t.disabled || t.queue.hasMessage then
    if t.disabled then some .null else some (.elt t.queue.top)
  else none

def pop (t : ThreadsafeQueue α) : ThreadsafeQueue α := { t with queue := t.queue.pop }

def disable (t : ThreadsafeQueue α) : ThreadsafeQueue α := { t with disabled := true }

def enable (t : ThreadsafeQueue α) : ThreadsafeQueue α := { t with disabled := false }

def isEnabled (t : ThreadsafeQueue α) : Bool := !t.disabled

@[simp] theorem new_disabled (size : Nat) : (new size : ThreadsafeQueue α).disabled = false := rfl

@[simp] theorem setCapacity_disabled (t : ThreadsafeQueue α) (c : Nat) :
    (t.setCapacity c).disabled = t.disabled := rfl

@[simp] theorem pushIfRoom_disabled (t : ThreadsafeQueue α) (x : α) :
    (t.pushIfRoom x).2.disabled = t.disabled := by
  unfold pushIfRoom
  split <;> rfl

@[simp] theorem pop_disabled (t : ThreadsafeQueue α) : t.pop.disabled = t.disabled := rfl

@[simp] theorem disable_disabled (t : ThreadsafeQueue α) : t.disable.disabled = true := rfl

@[simp] theorem enable_disabled (t : ThreadsafeQueue α) : t.enable.disabled = false := rfl

theorem top_of_enabled {t : ThreadsafeQueue α} (enabled : t.isEnabled = true)
    (message : t.hasMessage = true) : t.top = some (.elt t.queue.top) := by
  have off : t.disabled = false := by simpa [isEnabled] using enabled
  have some : t.queue.hasMessage = true := message
  simp [top, off, some]

end ThreadsafeQueue
end Zcm.Util
