import Memograph.Environment

/-! Procedures as dialogues with an environment. A procedure asks one request after the other and
may let each depend on the replies so far, until it is done. Nothing is said here of who replies,
so one dialogue can be held with an environment that caches and with one that does not. -/

namespace Memograph

/-- What a procedure can ask of its environment. -/
inductive Request (π : Type) where
  /-- The value of a variable, or of one of its items. -/
  | read (name : QualifiedName) (index : Option Int64)
  /-- The value of a registered dependency, or of one of its items. -/
  | evaluate (name : QualifiedName) (index : Option Int64)
  /-- To give a variable a value and invalidate its readers. -/
  | assign (name : QualifiedName) (value : Value)
  /-- To give a variable a value and tell nobody. -/
  | store (name : QualifiedName) (value : Value)
  /-- To invalidate a name and its readers. -/
  | notify (name : QualifiedName)
  | register (name : QualifiedName) (registration : Registration π)
  /-- To change the active context. -/
  | enter (context : ContextPath)
  /-- To look at the environment as it is. -/
  | inspect
  /-- To note an answer in the journal. -/
  | note (answer : Answer)

/-- What a request is replied to with. -/
@[reducible] def Request.Reply {π : Type} : Request π → Type
  | .read _ _ => Except Error Value
  | .evaluate _ _ => Except Error Value
  | .assign _ _ => List QualifiedName
  | .store _ _ => Unit
  | .notify _ => List QualifiedName
  | .register _ _ => Except Error Unit
  | .enter _ => Unit
  | .inspect => Environment π
  | .note _ => Unit

/-- A procedure in dialogue with its environment. -/
inductive Dialogue (π α : Type) where
  | done (result : α)
  | ask (request : Request π) (next : request.Reply → Dialogue π α)

namespace Dialogue

variable {π α β : Type}

def bind : Dialogue π α → (α → Dialogue π β) → Dialogue π β
  | .done result, f => f result
  | .ask request next, f => .ask request fun reply => bind (next reply) f

instance : Monad (Dialogue π) where
  pure := .done
  bind := bind

/-- The dialogue that asks one request and is done with its reply. -/
def request (request : Request π) : Dialogue π request.Reply := .ask request .done

@[simp] theorem done_bind (result : α) (f : α → Dialogue π β) :
    (done result).bind f = f result := rfl

@[simp] theorem ask_bind (request : Request π) (next : request.Reply → Dialogue π α)
    (f : α → Dialogue π β) :
    (ask request next).bind f = ask request fun reply => (next reply).bind f := rfl

end Dialogue

/-- What each procedure does when it is started for a slot. -/
abbrev Meaning (π : Type) := π → Option Int64 → Dialogue π (Except Error Value)

end Memograph
