/-!
# Programs of calls

What one thread does is a program: it makes a call, looks at the reply and goes on. A program is
a finite tree, so it always ends once its calls do; retries and waiting happen inside a call, where
the shared object decides them.
-/

namespace Interlock

/-- A program that makes calls of type `κ`, receives replies of type `ρ` and ends with a `β`. -/
inductive Program (κ ρ β : Type) where
  | done (result : β)
  | call (request : κ) (next : ρ → Program κ ρ β)

namespace Program

variable {κ ρ β γ : Type}

/-- Run `p`, then the program that its result selects. -/
def bind (p : Program κ ρ β) (f : β → Program κ ρ γ) : Program κ ρ γ :=
  match p with
  | done result => f result
  | call request next => call request fun reply => (next reply).bind f

instance : Monad (Program κ ρ) where
  pure := done
  bind := bind

def ask (request : κ) : Program κ ρ ρ :=
  call request done

/-- Run a program with every call answered at once by `answer`, which may change the state. -/
def run {σ : Type} (answer : σ → κ → σ × ρ) : Program κ ρ β → σ → σ × β
  | done result, s => (s, result)
  | call request next, s =>
    let (s, reply) := answer s request
    (next reply).run answer s

/-- Run `body` on each item in order, and pass a value along. -/
def fold {α : Type} (body : β → α → Program κ ρ β) (b : β) : List α → Program κ ρ β
  | [] => done b
  | a :: rest => (body b a).bind fun b => fold body b rest

@[simp]
theorem bind_done (b : β) (f : β → Program κ ρ γ) : (done b : Program κ ρ β).bind f = f b :=
  rfl

@[simp]
theorem bind_call (request : κ) (next : ρ → Program κ ρ β) (f : β → Program κ ρ γ) :
    (call request next).bind f = call request fun reply => (next reply).bind f :=
  rfl

theorem bind_done_right (p : Program κ ρ β) : p.bind done = p := by
  induction p with
  | done => rfl
  | call request next ih => simp [ih]

theorem bind_assoc {δ : Type} (p : Program κ ρ β) (f : β → Program κ ρ γ)
    (g : γ → Program κ ρ δ) : (p.bind f).bind g = p.bind fun b => (f b).bind g := by
  induction p with
  | done => rfl
  | call request next ih => simp [ih]

end Program

end Interlock
