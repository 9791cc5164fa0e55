import Backslice.Event

namespace Backslice

structure Traced (ε α : Type) where
  events : List Event
  outcome : Except ε α

namespace Traced

variable {ε ε' α β : Type}

def bind (x : Traced ε α) (f : α → Traced ε β) : Traced ε β :=
  match x.outcome with
  | .ok a => ⟨x.events ++ (f a).events, (f a).outcome⟩
  | .error e => ⟨x.events, .error e⟩

instance : Monad (Traced ε) where
  pure a := ⟨[], .ok a⟩
  bind := bind

instance : MonadExcept ε (Traced ε) where
  throw e := ⟨[], .error e⟩
  tryCatch x handle :=
    match x.outcome with
    | .ok _ => x
    | .error e => ⟨x.events ++ (handle e).events, (handle e).outcome⟩

def report (e : Event) : Traced ε PUnit := ⟨[e], .ok ⟨⟩⟩

def reportAll (es : List Event) : Traced ε PUnit := ⟨es, .ok ⟨⟩⟩

def lift (f : ε' → ε) : Except ε' α → Traced ε α
  | .ok a => ⟨[], .ok a⟩
  | .error e => ⟨[], .error (f e)⟩

@[simp] theorem outcome_pure (a : α) : (pure a : Traced ε α).outcome = .ok a := rfl

@[simp] theorem outcome_bind (x : Traced ε α) (f : α → Traced ε β) :
    (x >>= f).outcome = x.outcome >>= fun a => (f a).outcome := by
  show (bind x f).outcome = _
  unfold bind
  cases h : x.outcome <;> rfl

@[simp] theorem outcome_report (e : Event) : (report e : Traced ε PUnit).outcome = .ok ⟨⟩ := rfl

@[simp] theorem outcome_reportAll (es : List Event) :
    (reportAll es : Traced ε PUnit).outcome = .ok ⟨⟩ := rfl

@[simp] theorem outcome_throw (e : ε) : (throw e : Traced ε α).outcome = .error e := rfl

@[simp] theorem outcome_lift (f : ε' → ε) (x : Except ε' α) :
    (lift f x).outcome = x.mapError f := by
  cases x <;> rfl

end Traced

end Backslice
