/-!
Programs as data: trees of requests to the surroundings, each with a continuation for every answer. What a
program does is fixed here; how its requests are met is up to whoever runs it.
-/

namespace ChordOverlay

/-- The requests a program may make, and the type of the answer to each. -/
structure Interface where
  Op : Type
  Answer : Op → Type

/-- A program over an interface that ends with a value of type `α`. -/
inductive Program (I : Interface) (α : Type) where
  | done (a : α)
  | ask (op : I.Op) (next : I.Answer op → Program I α)

namespace Program

variable {I J : Interface} {α β γ : Type}

/-- Goes on with what the program gives. -/
def bind : Program I α → (α → Program I β) → Program I β
  | .done a, f => f a
  | .ask op next, f => .ask op fun answer => (next answer).bind f

instance : Monad (Program I) where
  pure := .done
  bind := bind

/-- The program that makes one request and ends with its answer. -/
def request (op : I.Op) : Program I (I.Answer op) := .ask op .done

/-- Replaces every request by a program over another interface. -/
def compile (f : (op : I.Op) → Program J (I.Answer op)) : Program I α → Program J α
  | .done a => .done a
  | .ask op next => (f op).bind fun answer => (next answer).compile f

/-- The program without its value. -/
def silent (p : Program I α) : Program I Unit := p.bind fun _ => .done ()

@[simp] theorem pure_eq_done (a : α) : (pure a : Program I α) = .done a := rfl

@[simp] theorem bind_eq (p : Program I α) (f : α → Program I β) : p >>= f = p.bind f := rfl

@[simp] theorem bind_done (p : Program I α) : p.bind .done = p := by
  induction p with
  | done a => rfl
  | ask op next ih => exact congrArg (ask op) (funext ih)

theorem bind_assoc (p : Program I α) (f : α → Program I β) (g : β → Program I γ) :
    (p.bind f).bind g = p.bind fun a => (f a).bind g := by
  induction p with
  | done a => rfl
  | ask op next ih => exact congrArg (ask op) (funext ih)

/-- Replacing requests respects the order of programs. -/
theorem compile_bind (h : (op : I.Op) → Program J (I.Answer op)) (p : Program I α)
    (f : α → Program I β) : (p.bind f).compile h = (p.compile h).bind fun a => (f a).compile h := by
  induction p with
  | done a => rfl
  | ask op next ih =>
    rw [compile, bind_assoc]
    exact congrArg (h op).bind (funext ih)

end Program

end ChordOverlay
