import Interlock.System

/-!
# The lock of a monitor

A lock is a word with three values, the identity of its owner and the number of levels the owner
has entered. A thread that finds the word taken looks at it a limited number of times, then marks
it as contended and falls asleep until a release wakes it; from then on it takes the word as
contended, because others may be asleep behind it.

The owner and the levels are separate words, written one after the other by the thread that has
won the word. `Stage.advance` performs one access of one of the five procedures: entering, trying
to enter, leaving a level, leaving all levels, and returning to a given number of levels.
-/

namespace Interlock

/-- The value of the lock's word. -/
inductive Word where
  | unlocked
  | locked
  | contended
  deriving DecidableEq, Repr, Inhabited

/-- A lock. Identity `0` belongs to no thread. -/
structure Lock where
  word : Word := .unlocked
  /-- The identity of the thread that holds the lock, or `0`. -/
  owner : UInt64 := 0
  /-- The number of levels that the owner has entered. It is not bounded; a machine word that
  counts them would start again at `0` after `2 ^ 64` levels of one thread. -/
  depth : Nat := 0
  /-- How often a thread looks at the word before it falls asleep. -/
  spinLimit : Nat := 0
  /-- The threads asleep on the word, the longest sleeper first. -/
  sleepers : List Nat := []
  deriving Repr, Inhabited

namespace Lock

/-- Where a thread is between wanting the word and winning it. -/
inductive Acquire where
  | attempt
  /-- About to look at the word after a number of spins. -/
  | inspect (spins : Nat)
  /-- About to take the word, which was free a moment ago. -/
  | claim (spins : Nat)
  /-- About to mark the word as contended before sleeping. -/
  | mark
  /-- About to fall asleep if the word is still contended. -/
  | doze
  /-- Asleep, or about to mark the word as contended after sleeping. -/
  | remark
  deriving DecidableEq, Repr

namespace Acquire

/-- What follows a look at the word. -/
def afterLook (spinLimit spins : Nat) : Word → Acquire
  | .unlocked => claim spins
  | .locked => if spins < spinLimit then inspect (spins + 1) else mark
  | .contended => if spins < spinLimit then inspect (spins + 1) else doze

/-- What follows a mark that did not win the word. -/
def afterMark : Word → Acquire
  | .contended => doze
  | _ => mark

/-- The next access of thread `t`; `some (lock, none)` if it wins the word, `none` while it
sleeps. -/
def advance (t : Nat) (chance : Chance) (l : Lock) : Acquire → Option (Lock × Option Acquire)
  | attempt =>
    if l.word = .unlocked then some ({ l with word := .locked }, none)
    else some (l, some (inspect 0))
  | inspect spins => some (l, some (afterLook l.spinLimit spins l.word))
  | claim spins =>
    if l.word = .unlocked ∧ !chance.spurious then some ({ l with word := .locked }, none)
    else some (l, some (afterLook l.spinLimit spins l.word))
  | mark =>
    let marked := { l with word := .contended }
    if l.word = .unlocked then some (marked, none) else some (marked, some doze)
  | doze =>
    if l.word = .contended ∧ !chance.spurious then
      some ({ l with sleepers := l.sleepers ++ [t] }, some remark)
    else some (l, some remark)
  | remark =>
    if t ∈ l.sleepers then
      if chance.spurious then some ({ l with sleepers := l.sleepers.erase t }, some remark)
      else none
    else
      let marked := { l with word := .contended }
      if l.word = .unlocked then some (marked, none) else some (marked, some (afterMark l.word))

end Acquire

/-- Where a thread is in one of the lock's procedures. `levels` is the number of levels the
procedure enters or has left. -/
inductive Stage where
  /-- About to read the owner; a thread that is not the owner then waits for the word, or gives up
  if it may not wait. -/
  | ask (mayWait : Bool)
  | deepen
  | acquire (progress : Acquire) (levels : Nat)
  /-- About to take a free word without waiting. -/
  | tryWord
  /-- Has won the word; about to write the owner. -/
  | own (levels : Nat)
  | settle (levels : Nat)
  | leave
  | surrender
  | disown (levels : Nat)
  | free (levels : Nat)
  /-- Has given a contended word back; about to wake a sleeper. -/
  | wake (levels : Nat)
  deriving DecidableEq, Repr

/-- How a procedure ends. -/
inductive Reply where
  | entered
  | refused
  /-- The thread has left a number of levels. -/
  | departed (levels : Nat)
  deriving DecidableEq, Repr

/-- Wake one sleeper, if there is one. -/
def wakeOne (pick : Nat) (l : Lock) : Lock :=
  { l with sleepers := l.sleepers.eraseIdx (pick % l.sleepers.length) }

/-- The next access of thread `t`, whose identity is `me`. -/
def Stage.advance (t : Nat) (me : UInt64) (chance : Chance) (l : Lock) :
    Stage → Option (Lock × Progress Stage Reply)
  | ask mayWait =>
    if l.owner = me then some (l, .ongoing deepen)
    else if mayWait then some (l, .ongoing (acquire .attempt 1))
    else some (l, .ongoing tryWord)
  | deepen => some ({ l with depth := l.depth + 1 }, .finished .entered)
  | acquire progress levels =>
    match progress.advance t chance l with
    | none => none
    | some (l, none) => some (l, .ongoing (own levels))
    | some (l, some progress) => some (l, .ongoing (acquire progress levels))
  | tryWord =>
    if l.word = .unlocked then some ({ l with word := .locked }, .ongoing (own 1))
    else some (l, .finished .refused)
  | own levels => some ({ l with owner := me }, .ongoing (settle levels))
  | settle levels => some ({ l with depth := levels }, .finished .entered)
  | leave =>
    let left := { l with depth := l.depth - 1 }
    if l.depth = 1 then some (left, .ongoing (disown 1)) else some (left, .finished (.departed 1))
  | surrender => some ({ l with depth := 0 }, .ongoing (disown l.depth))
  | disown levels => some ({ l with owner := 0 }, .ongoing (free levels))
  | free levels =>
    let freed := { l with word := .unlocked }
    if l.word = .contended then some (freed, .ongoing (wake levels))
    else some (freed, .finished (.departed levels))
  | wake levels => some (l.wakeOne chance.pick, .finished (.departed levels))

end Lock

end Interlock
