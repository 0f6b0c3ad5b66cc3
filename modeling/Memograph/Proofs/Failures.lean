import Memograph.Session.Step

/-! What dialogues fail with. Operations on values have errors of their own, and none of them is a
cycle. A body fails with an error of an operation or with one that it hears from its environment,
and a step answers with an error that it hears or with one that is no cycle either. So every cycle
that is answered was found by the environment. -/

namespace Memograph

variable {π : Type}

/-- Whether an error is that of a cycle. -/
def Error.isCycle : Error → Bool
  | .circularDependency _ _ => true
  | _ => false

/-! ### Operations -/

/-- Whether the error of a computation, if it has one, has a property. -/
def Fails {α : Type} (T : Error → Prop) (result : Except Error α) : Prop :=
  ∀ cause, result = .error cause → T cause

namespace Fails

variable {α β : Type} {T : Error → Prop}

theorem ok (result : α) : Fails T (.ok result) := nofun

theorem error {cause : Error} (h : T cause) : Fails T (.error cause : Except Error α) := by
  intro other hother
  cases hother
  exact h

theorem bind {result : Except Error α} {f : α → Except Error β} (h : Fails T result)
    (hf : ∀ a, Fails T (f a)) : Fails T (result.bind f) := by
  cases result with
  | error cause => exact .error (h cause rfl)
  | ok a => exact hf a

theorem map {result : Except Error α} (f : α → β) (h : Fails T result) :
    Fails T (f <$> result) := by
  cases result with
  | error cause => exact .error (h cause rfl)
  | ok a => exact .ok (f a)

end Fails

namespace Value

variable {T : Error → Prop}

mutual

theorem fails_traverse {f : Value → Except Error Value} (hf : ∀ a, Fails T (f a)) :
    ∀ value, Fails T (traverse f value)
  | .scalar a => by
      rw [traverse]
      exact hf _
  | .array items => by
      rw [traverse]
      exact (fails_traverseItems hf items).map _

theorem fails_traverseItems {f : Value → Except Error Value} (hf : ∀ a, Fails T (f a)) :
    ∀ items, Fails T (traverseItems f items)
  | [] => by
      rw [traverseItems]
      exact .ok []
  | item :: items => by
      rw [traverseItems]
      exact (fails_traverse hf item).bind fun first =>
        (fails_traverseItems hf items).bind fun rest => .ok (first :: rest)

end

mutual

theorem fails_zipWith {operation : Operation} {f : Value → Value → Except Error Value}
    (hlength : T (.length operation)) (hf : ∀ a b, Fails T (f a b)) :
    ∀ left right, Fails T (zipWith operation f left right)
  | .scalar a, right => by
      rw [zipWith]
      exact fails_traverse (hf _) right
  | .array left, .scalar b => by
      rw [zipWith]
      exact (fails_traverseItems (fun a => hf a _) left).map _
  | .array left, .array right => by
      rw [zipWith]
      split
      · exact (fails_zipItems hlength hf left right).map _
      · exact .error hlength

theorem fails_zipItems {operation : Operation} {f : Value → Value → Except Error Value}
    (hlength : T (.length operation)) (hf : ∀ a b, Fails T (f a b)) :
    ∀ left right, Fails T (zipItems operation f left right)
  | left :: lefts, right :: rights => by
      rw [zipItems]
      exact (fails_zipWith hlength hf left right).bind fun first =>
        (fails_zipItems hlength hf lefts rights).bind fun rest => .ok (first :: rest)
  | [], _ => by
      rw [zipItems]
      · exact .ok []
      · exact nofun
  | _ :: _, [] => by
      rw [zipItems]
      · exact .ok []
      · exact nofun

end

theorem fails_select (hT : ∀ cause : Error, cause.isCycle = false → T cause) (value : Value)
    (position : Int64) : Fails T (value.select position) := by
  unfold select
  split
  · exact .error (hT _ rfl)
  · split
    · exact .error (hT _ rfl)
    · split
      · exact .ok _
      · exact .error (hT _ rfl)

mutual

theorem fails_asIndex (hT : ∀ cause : Error, cause.isCycle = false → T cause) :
    ∀ value : Value, Fails T value.asIndex
  | .scalar (.int n) => by
      rw [asIndex, Scalar.asIndex]
      exact .ok n
  | .scalar (.float x) => by
      rw [asIndex, Scalar.asIndex]
      split
      · exact .ok _
      · exact .error (hT _ rfl)
  | .array items => by
      rw [asIndex]
      exact fails_asIndexOfItems hT items

theorem fails_asIndexOfItems (hT : ∀ cause : Error, cause.isCycle = false → T cause) :
    ∀ items : List Value, Fails T (asIndexOfItems items)
  | [item] => by
      rw [asIndexOfItems]
      exact fails_asIndex hT item
  | [] => .error (hT _ rfl)
  | _ :: _ :: _ => .error (hT _ rfl)

end

theorem fails_asFloat (hT : ∀ cause : Error, cause.isCycle = false → T cause) (value : Value) :
    Fails T value.asFloat := by
  cases value with
  | scalar a => exact .ok _
  | array items => exact .error (hT _ rfl)

theorem fails_arithmetic (hT : ∀ cause : Error, cause.isCycle = false → T cause)
    (exact : Int → Int → Int) (rounded : Float → Float → Float) (a b : Value) :
    Fails T (arithmetic exact rounded a b) := by
  unfold arithmetic
  split
  · dsimp only
    split
    · exact .ok _
    · exact .ok _
  · exact (fails_asFloat hT a).bind fun x => (fails_asFloat hT b).bind fun y => .ok _

theorem fails_quotient (hT : ∀ cause : Error, cause.isCycle = false → T cause) (a b : Value) :
    Fails T (quotient a b) := by
  refine (fails_asFloat hT b).bind fun divisor => ?_
  split
  · exact .error (hT _ rfl)
  · exact (fails_asFloat hT a).bind fun dividend => .ok _

theorem fails_unary (op : UnaryOp) (value : Value) : Fails T (op.apply value) := by
  cases op with
  | negate => exact .ok _

theorem fails_binary (hT : ∀ cause : Error, cause.isCycle = false → T cause) (op : BinaryOp)
    (left right : Value) : Fails T (op.apply left right) := by
  cases op with
  | add => exact fails_zipWith (hT _ rfl) (fails_arithmetic hT _ _) left right
  | subtract => exact fails_zipWith (hT _ rfl) (fails_arithmetic hT _ _) left right
  | multiply => exact fails_zipWith (hT _ rfl) (fails_arithmetic hT _ _) left right
  | divide => exact fails_zipWith (hT _ rfl) (fails_quotient hT) left right

end Value

/-! ### Dialogues -/

/-- The error of a computation, if it has one. -/
def errorOf {α : Type} : Except Error α → Option Error
  | .ok _ => none
  | .error cause => some cause

theorem eq_error_of_errorOf {α : Type} {result : Except Error α} {cause : Error}
    (h : errorOf result = some cause) : result = .error cause := by
  cases result with
  | ok value => cases h
  | error other => exact congrArg Except.error (Option.some.inj h)

theorem fails_of_errorOf {α : Type} {T : Error → Prop} {result : Except Error α}
    (h : ∀ cause, errorOf result = some cause → T cause) : Fails T result := by
  rintro cause rfl
  exact h cause rfl

/-- The error that a reply to a request is, if it is one. -/
def Request.failure? : (request : Request π) → request.Reply → Option Error
  | .read _ _, reply => errorOf reply
  | .evaluate _ _, reply => errorOf reply
  | .register _ _, reply => errorOf reply
  | _, _ => none

/-- Whether a request is to register something. -/
def Request.registers : Request π → Bool
  | .register _ _ => true
  | _ => false

namespace Dialogue

variable {α β : Type} {T : Error → Prop} {Q : α → Prop}

/-- Whether a dialogue registers nothing, and its result has a property if all errors that it hears
have one. -/
def Yields (T : Error → Prop) (Q : α → Prop) : Dialogue π α → Prop
  | .done result => Q result
  | .ask request next => request.registers = false ∧
    ∀ reply, (∀ cause, request.failure? reply = some cause → T cause) → Yields T Q (next reply)

theorem Yields.bind {R : β → Prop} {d : Dialogue π α} {f : α → Dialogue π β}
    (h : d.Yields T Q) (hf : ∀ result, Q result → (f result).Yields T R) :
    (d.bind f).Yields T R := by
  induction d with
  | done result => exact hf result h
  | ask request next ih => exact ⟨h.1, fun reply hreply => ih reply (h.2 reply hreply)⟩

/-- A request is yielded from as it is replied to. -/
theorem yields_request {request : Request π} (h : request.registers = false) :
    (Dialogue.request request).Yields T fun reply =>
      ∀ cause, request.failure? reply = some cause → T cause :=
  ⟨h, fun _ hreply => hreply⟩

end Dialogue

/-! ### Bodies -/

namespace Body

variable {α β : Type} {T : Error → Prop}

/-- Whether a part of a run fails with errors that have a property, if all that it hears have. -/
def Candid (T : Error → Prop) (part : Body π α) : Prop :=
  ∀ locals, Dialogue.Yields T (Fails T) (part locals)

theorem Candid.pure (result : α) : Candid T (Pure.pure result : Body π α) := fun _ => Fails.ok _

theorem Candid.bind {part : Body π α} {f : α → Body π β} (hpart : Candid T part)
    (hf : ∀ result, Candid T (f result)) : Candid T (part >>= f) := by
  intro locals
  change Dialogue.Yields T (Fails T) (Dialogue.bind (part locals)
    (ExceptT.bindCont fun state : α × Table String Value => f state.1 state.2))
  refine (hpart locals).bind fun result hresult => ?_
  cases result with
  | error cause => exact Fails.error (hresult cause rfl)
  | ok state => exact hf state.1 state.2

theorem candid_ofExcept {result : Except Error α} (h : Fails T result) :
    Candid T (ofExcept result : Body π α) := by
  intro locals
  change Dialogue.Yields T (Fails T)
    (Dialogue.bind (.done result) (ExceptT.bindCont fun a => Pure.pure (a, locals)))
  refine Dialogue.Yields.bind (Q := Fails T) h fun result hresult => ?_
  cases result with
  | error cause => exact Fails.error (hresult cause rfl)
  | ok a => exact Fails.ok _

theorem candid_value (name : QualifiedName) (index : Option Int64) :
    Candid T (value (.request (.read name index)) : Body π Value) := by
  refine fun locals => ⟨rfl, fun reply hreply => ?_⟩
  cases reply with
  | error cause => exact Fails.error (hreply cause rfl)
  | ok value => exact Fails.ok _

theorem candid_get : Candid T (get : Body π (Table String Value)) := fun _ => Fails.ok _

theorem candid_throw {cause : Error} (h : T cause) : Candid T (throw cause : Body π α) :=
  fun _ => Fails.error h

theorem candid_modify (f : Table String Value → Table String Value) :
    Candid T (modify f : Body π PUnit) := fun _ => Fails.ok _

theorem candid_read (hT : ∀ cause : Error, cause.isCycle = false → T cause)
    (resolution : Resolution) (written : String) :
    Candid T (read resolution written : Body π Value) := by
  unfold read
  cases resolution.resolve written with
  | global name => exact candid_value name none
  | indexer =>
      refine candid_get.bind fun locals => ?_
      split
      · exact Candid.pure _
      · exact candid_throw (hT _ rfl)
  | localName =>
      refine candid_get.bind fun locals => ?_
      split
      · exact Candid.pure _
      · exact candid_throw (hT _ rfl)

theorem candid_assign (resolution : Resolution) (written : String) (value : Value) :
    Candid T (assign resolution written value : Body π Unit) := by
  unfold assign
  cases resolution.resolve written with
  | global name =>
      dsimp only
      split
      · exact fun locals => ⟨rfl, fun reply _ => Fails.ok _⟩
      · exact fun locals => ⟨rfl, fun reply _ => Fails.ok _⟩
  | indexer => exact candid_modify _
  | localName => exact candid_modify _

end Body

namespace Expr

variable {T : Error → Prop}

mutual

theorem candid_evaluate (hT : ∀ cause : Error, cause.isCycle = false → T cause)
    (resolution : Resolution) :
    ∀ expr : Expr, Body.Candid T (evaluate resolution expr : Body π Value)
  | .constant value => by
      rw [evaluate]
      exact Body.Candid.pure value
  | .name written => by
      rw [evaluate]
      exact Body.candid_read hT resolution written
  | .vector items => by
      rw [evaluate]
      exact (candid_evaluateAll hT resolution items).bind fun values => Body.Candid.pure _
  | .item target index => by
      rw [evaluate]
      refine (candid_evaluate hT resolution index).bind fun position =>
        (Body.candid_ofExcept (Value.fails_asIndex hT position)).bind fun place => ?_
      split
      · exact Body.candid_value _ _
      · exact (candid_evaluate hT resolution target).bind fun value =>
          Body.candid_ofExcept (value.fails_select hT place)
  | .unary op operand => by
      rw [evaluate]
      exact (candid_evaluate hT resolution operand).bind fun value =>
        Body.candid_ofExcept (Value.fails_unary op value)
  | .binary op left right => by
      rw [evaluate]
      exact (candid_evaluate hT resolution right).bind fun value =>
        (candid_evaluate hT resolution left).bind fun value' =>
          Body.candid_ofExcept (Value.fails_binary hT op value' value)
  | .assign written value => by
      rw [evaluate]
      exact (candid_evaluate hT resolution value).bind fun result =>
        (Body.candid_assign resolution written result).bind fun _ => Body.Candid.pure result
  | .sequence statements => by
      rw [evaluate]
      exact candid_evaluateSequence hT resolution statements (.array [])

theorem candid_evaluateAll (hT : ∀ cause : Error, cause.isCycle = false → T cause)
    (resolution : Resolution) :
    ∀ exprs : List Expr, Body.Candid T (evaluateAll resolution exprs : Body π (List Value))
  | [] => by
      rw [evaluateAll]
      exact Body.Candid.pure []
  | first :: rest => by
      rw [evaluateAll]
      exact (candid_evaluate hT resolution first).bind fun value =>
        (candid_evaluateAll hT resolution rest).bind fun values => Body.Candid.pure _

theorem candid_evaluateSequence (hT : ∀ cause : Error, cause.isCycle = false → T cause)
    (resolution : Resolution) :
    ∀ (statements : List Expr) (last : Value),
      Body.Candid T (evaluateSequence resolution last statements : Body π Value)
  | [], last => by
      rw [evaluateSequence]
      exact Body.Candid.pure last
  | statement :: statements, last => by
      rw [evaluateSequence]
      exact (candid_evaluate hT resolution statement).bind fun value =>
        candid_evaluateSequence hT resolution statements value

end

/-- A run of an expression fails with an error that it hears or with one that is no cycle. -/
theorem yields_dialogue (hT : ∀ cause : Error, cause.isCycle = false → T cause)
    (resolution : Resolution) (body : Expr) (index : Option Int64) :
    (body.dialogue resolution index : Dialogue π (Except Error Value)).Yields T (Fails T) := by
  change Dialogue.Yields T (Fails T) (Dialogue.bind
    (evaluate resolution body (initialLocals resolution index))
    (ExceptT.bindCont fun state : Value × Table String Value => Pure.pure state.1))
  refine (candid_evaluate hT resolution body _).bind fun result hresult => ?_
  cases result with
  | error cause => exact Fails.error (hresult cause rfl)
  | ok state => exact Fails.ok _

end Expr

/-! ### Steps -/

theorem fails_qualifyGlobals {T : Error → Prop}
    (hT : ∀ cause : Error, cause.isCycle = false → T cause) (context : ContextPath)
    (locals candidates : List String) : Fails T (qualifyGlobals context locals candidates) := by
  induction candidates with
  | nil => exact .ok []
  | cons written candidates ih =>
      rw [qualifyGlobals]
      split
      · exact ih
      · split
        · exact ih.bind fun globals => .ok ((written, qualify context written) :: globals)
        · exact .error (hT _ rfl)

theorem Definition.fails_compile {T : Error → Prop}
    (hT : ∀ cause : Error, cause.isCycle = false → T cause) (definition : Definition)
    (context : ContextPath) : Fails T (definition.compile context) := by
  unfold compile
  dsimp only
  split
  · exact .error (hT _ rfl)
  · split
    · exact .error (hT _ rfl)
    · split
      · exact .error (hT _ rfl)
      · exact (fails_qualifyGlobals hT _ _ _).bind fun qualified => .ok _

/-- Whether an answer says of something that it failed with an error. -/
inductive Answer.Reports (cause : Error) : Answer → Prop
  | failed : Reports cause (.failed (.error cause))
  | several {answers : List Answer} {answer : Answer} (hmem : answer ∈ answers)
      (hanswer : Reports cause answer) : Reports cause (.several answers)

/-- The error that an answer is, if it is one. -/
def Answer.failure? : Answer → Option Error
  | .failed (.error cause) => some cause
  | _ => none

theorem Answer.reports_of_failure? {answer : Answer} {cause : Error}
    (h : answer.failure? = some cause) : answer.Reports cause := by
  unfold failure? at h
  split at h
  · cases h
    exact .failed
  · cases h

/-- Whether all errors of an answer have a property. -/
def Answer.Blames (T : Error → Prop) (answer : Answer) : Prop :=
  ∀ cause, answer.Reports cause → T cause

namespace Answer

variable {T : Error → Prop}

theorem blames_ofResult {result : Except Error Value} (h : Fails T result) :
    (ofResult result).Blames T := by
  intro cause hcause
  cases result with
  | ok value => cases hcause
  | error cause =>
      cases hcause
      exact h _ rfl

theorem blames_failed {cause : Error} (h : T cause) : (failed (.error cause)).Blames T := by
  intro other hother
  cases hother
  exact h

end Answer

namespace Exchange

open Dialogue

variable {T : Error → Prop}

theorem yields_inspect : inspect.Yields T fun _ => True :=
  ⟨rfl, fun _ _ => trivial⟩

theorem yields_resolve (name : NameRef) : (resolve name).Yields T fun _ => True := by
  cases name with
  | written name => exact yields_inspect.bind fun env _ => trivial
  | qualified name => trivial

theorem yields_read (slot : Int64) (name : NameRef) (index : Option IndexRef) :
    (read slot name index).Yields T (Answer.Blames T) := by
  refine (yields_resolve name).bind fun resolved _ => ?_
  exact (yields_request rfl).bind fun result hresult =>
    Answer.blames_ofResult (fails_of_errorOf hresult)

theorem yields_readAll (slot : Int64) (reads : List (NameRef × Option IndexRef)) :
    (readAll slot reads).Yields T fun answers => ∀ answer ∈ answers, answer.Blames T := by
  induction reads with
  | nil => exact fun _ hmem => absurd hmem List.not_mem_nil
  | cons first rest ih =>
      refine (yields_read slot first.1 first.2).bind fun answer hanswer => ?_
      refine ih.bind fun answers hanswers => ?_
      exact List.forall_mem_cons.mpr ⟨hanswer, hanswers⟩

theorem yields_contextOrActive (context : Option ContextPath) :
    (contextOrActive context).Yields T fun _ => True := by
  cases context with
  | none => exact yields_inspect.bind fun env _ => trivial
  | some context => trivial

theorem yields_runOnce (hT : ∀ cause : Error, cause.isCycle = false → T cause)
    (definition : Definition) (context : Option ContextPath) (index : Option Int64) :
    (runOnce definition context index).Yields T (Answer.Blames T) := by
  refine (yields_contextOrActive context).bind fun context _ => ?_
  cases hcompile : definition.compile context with
  | error cause => exact Answer.blames_failed (definition.fails_compile hT context cause hcompile)
  | ok compiled =>
      exact (Expr.yields_dialogue hT compiled.resolution compiled.body index).bind
        fun result hresult => Answer.blames_ofResult hresult

theorem yields_ofDependency {answer : QualifiedName → Option (Dependency Procedure) → Answer}
    (h : ∀ name dependency, (answer name dependency).Blames T) (name : NameRef) :
    (ofDependency name answer).Yields T (Answer.Blames T) :=
  (yields_resolve name).bind fun resolved _ => yields_inspect.bind fun _ _ => h resolved _

theorem blames_known (hT : ∀ cause : Error, cause.isCycle = false → T cause)
    {answer : QualifiedName → Dependency Procedure → Answer}
    (h : ∀ name dependency, (answer name dependency).Blames T) (name : QualifiedName)
    (dependency : Option (Dependency Procedure)) : (known answer name dependency).Blames T := by
  cases dependency with
  | none => exact Answer.blames_failed (hT _ rfl)
  | some dependency => exact h name dependency

end Exchange

namespace Step

open Dialogue

/-- Whether a step registers nothing but compiled definitions, and these under the reads of their
bodies. A text that is no step is not refused for a cycle. -/
def compiledOnly : Step → Bool
  | .define definition _ => definition.usage == Usage.ofExpr definition.body
  | .register _ _ _ _ _ => false
  | .refused (.error cause) => !cause.isCycle
  | _ => true

/-- A step that defines nothing answers with errors that it hears or that are no cycles. -/
theorem yields_dialogue {T : Error → Prop}
    (hT : ∀ cause : Error, cause.isCycle = false → T cause) {step : Step}
    (hcompiled : step.compiledOnly = true)
    (hdefine : ∀ definition context, step ≠ .define definition context) (slot : Int64) :
    (step.dialogue slot).Yields T (Answer.Blames T) := by
  cases step with
  | define definition context => exact absurd rfl (hdefine definition context)
  | register name shape reads steps verdict => cases hcompiled
  | enter context => exact (yields_request rfl).bind fun _ _ => nofun
  | assign name value =>
      exact (Exchange.yields_resolve name).bind fun _ _ =>
        (yields_request rfl).bind fun _ _ => nofun
  | notify name =>
      exact (Exchange.yields_resolve name).bind fun _ _ =>
        (yields_request rfl).bind fun _ _ => nofun
  | read name index => exact Exchange.yields_read slot name index
  | evaluate name index =>
      refine (Exchange.yields_resolve name).bind fun resolved _ => ?_
      exact (yields_request rfl).bind fun result hresult =>
        Answer.blames_ofResult (fails_of_errorOf hresult)
  | eval expr =>
      have heval : (Exchange.eval expr).Yields T (Fails T) :=
        Exchange.yields_inspect.bind fun env _ => Expr.yields_dialogue hT _ expr none
      exact heval.bind fun result hresult => Answer.blames_ofResult hresult
  | runOnce definition context index => exact Exchange.yields_runOnce hT definition context _
  | invalidate name =>
      refine (Exchange.yields_resolve name).bind fun resolved _ => ?_
      refine Exchange.yields_inspect.bind fun env _ => ?_
      split
      · exact (yields_request rfl).bind fun _ _ => nofun
      · exact Answer.blames_failed (hT _ rfl)
  | stored name =>
      exact (Exchange.yields_resolve name).bind fun _ _ =>
        Exchange.yields_inspect.bind fun _ _ => nofun
  | readers name =>
      exact (Exchange.yields_resolve name).bind fun _ _ =>
        Exchange.yields_inspect.bind fun _ _ => nofun
  | status name index =>
      rw [dialogue]
      exact Exchange.yields_ofDependency (fun _ _ _ hcause => by cases hcause) name
  | source name =>
      rw [dialogue]
      exact Exchange.yields_ofDependency (fun _ _ _ hcause => by cases hcause) name
  | recomputes name =>
      rw [dialogue]
      exact Exchange.yields_ofDependency (fun _ _ _ hcause => by cases hcause) name
  | contains name =>
      rw [dialogue]
      exact Exchange.yields_ofDependency (fun _ _ _ hcause => by cases hcause) name
  | dependency name =>
      exact Exchange.yields_ofDependency (Exchange.blames_known hT fun _ _ _ h => by cases h) name
  | describe name =>
      exact Exchange.yields_ofDependency (Exchange.blames_known hT fun _ _ _ h => by cases h) name
  | names => exact Exchange.yields_inspect.bind fun _ _ => nofun
  | config => exact Exchange.yields_inspect.bind fun _ _ => nofun
  | items => exact Exchange.yields_inspect.bind fun _ _ => nofun
  | sleep milliseconds => exact nofun
  | several reads =>
      refine (Exchange.yields_readAll slot reads).bind fun answers hanswers => ?_
      rintro cause (_ | ⟨hmem, hanswer⟩)
      exact hanswers _ hmem cause hanswer
  | refused failure =>
      cases failure with
      | error cause =>
          rw [compiledOnly, Bool.not_eq_true'] at hcompiled
          exact Answer.blames_failed (hT cause hcompiled)
      | _ => exact nofun

end Step
end Memograph
