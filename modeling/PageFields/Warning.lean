import PageFields.Error

/-! # Warnings

A template may be usable and still hold something that is not what its author meant. What is worth
a warning is collected beside the outcome (`Logged`), so that it is reported whether the operation
succeeds or fails. Leaving the warnings out gives back the plain operation (`outcome_bind`). -/

namespace PageFields

/-- What is worth a warning. -/
inductive Warning
  /-- An `endblock` directive that closes nothing. -/
  | strayEnd (line : Nat)
  /-- Content of a child template that no block holds. -/
  | droppedContent (parent : Text)
  deriving DecidableEq, Repr

/-- The wording of a warning. -/
def Warning.message : Warning → String
  | .strayEnd _ => "ignoring `endblock` without a matching `block`"
  | .droppedContent _ =>
    "content outside blocks in a child template is dropped by a structured save"

/-- An outcome and the warnings on the way to it. -/
structure Logged (α : Type) where
  warnings : List Warning
  outcome : Except Error α

namespace Logged

variable {α β : Type}

/-- Gives a warning. -/
def warn (w : Warning) : Logged Unit := ⟨[w], .ok ()⟩

/-- An outcome without warnings. -/
def lift (x : Except Error α) : Logged α := ⟨[], x⟩

/-- Goes on with the value of an outcome, keeping all warnings. -/
def bind (x : Logged α) (f : α → Logged β) : Logged β :=
  match x.outcome with
  | .error e => ⟨x.warnings, .error e⟩
  | .ok a => ⟨x.warnings ++ (f a).warnings, (f a).outcome⟩

instance : Monad Logged where
  pure a := ⟨[], .ok a⟩
  bind := Logged.bind

instance : MonadLift (Except Error) Logged where
  monadLift := lift

@[simp] theorem outcome_pure (a : α) : (pure a : Logged α).outcome = .ok a := rfl

@[simp] theorem outcome_bind (x : Logged α) (f : α → Logged β) :
    (x >>= f).outcome = x.outcome >>= fun a => (f a).outcome := by
  obtain ⟨w, x⟩ := x
  cases x <;> rfl

instance : LawfulMonad Logged := LawfulMonad.mk' Logged
  (fun ⟨_, x⟩ => by cases x <;> simp [Functor.map, Logged.bind])
  (fun _ _ => by simp [Bind.bind, Logged.bind, pure])
  (fun ⟨_, x⟩ f g => by
    cases x with
    | error => rfl
    | ok a =>
      simp only [Bind.bind, Logged.bind]
      cases h : (f a).outcome <;> simp)

end Logged

end PageFields
