import Mathlib

/-!
# Spinlocks and the interrupt flag

A spinlock of this kernel is a critical section on one processor: taking it saves the interrupt
flag *inside the lock object* and disables interrupts, releasing it restores the saved flag. `kmalloc`
uses the same pair with the saved flag in a local variable.

## Main definitions

* `Cpu`, `irqSave`, `irqRestore`: the interrupt-enable flag
* `Spinlock`, `spinLock`, `spinUnlock`: the lock object and its two operations

## Main results

* `spinUnlock_spinLock`: a section that leaves the lock alone gives the flag back
* `spinUnlock_spinLock_spinLock`: a second section inside the first loses the flag saved by the
  first
-/

namespace PekerOS

/-- The processor, as far as locking sees it: the interrupt-enable bit of `EFLAGS`. -/
structure Cpu where
  interrupts : Bool
deriving DecidableEq, Inhabited

/-- `pushfl; popl; cli`: interrupts go off, the previous flag is returned. -/
def irqSave (c : Cpu) : Cpu × Bool := ({ c with interrupts := false }, c.interrupts)

/-- `pushl; popfl` -/
def irqRestore (c : Cpu) (flags : Bool) : Cpu := { c with interrupts := flags }

/-- `spinlock_t` -/
structure Spinlock where
  locked : Bool
  flags : Bool
deriving DecidableEq, Inhabited

/-- `spin_lock` -/
def spinLock (c : Cpu) (lock : Spinlock) : Cpu × Spinlock :=
  let (c, flags) := irqSave c
  (c, { lock with locked := true, flags := flags })

/-- `spin_unlock` -/
def spinUnlock (c : Cpu) (lock : Spinlock) : Cpu × Spinlock :=
  (irqRestore c lock.flags, { lock with locked := false })

/-- A section that does not touch the lock returns the flag it found and leaves the lock free. -/
theorem spinUnlock_spinLock (c c' : Cpu) (lock : Spinlock) :
    spinUnlock c' (spinLock c lock).2 = (c, ⟨false, c.interrupts⟩) := rfl

/-- Taking the lock again inside the section overwrites the saved flag: after both releases
interrupts are off, whatever they were on entry. -/
theorem spinUnlock_spinLock_spinLock (c : Cpu) (lock : Spinlock) :
    let (c₁, l₁) := spinLock c lock
    let (c₂, l₂) := spinLock c₁ l₁
    let (c₃, l₃) := spinUnlock c₂ l₂
    (spinUnlock c₃ l₃).1.interrupts = false := rfl

end PekerOS
