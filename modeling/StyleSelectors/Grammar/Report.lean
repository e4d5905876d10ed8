/-
What reading a selector may come to. A failure says what is wrong and where; a remark says which
part, though well formed, is beyond the trees of this library and stands for nothing. A report
keeps its remarks in order, also when it fails later on. Places are of any type: reading carries
them along and does not look at them.
-/
import StyleSelectors.Token.Printer
import StyleSelectors.Text.Quoted

namespace StyleSelectors

/-! ## Failures -/

inductive Cause where
  /-- No selector where there has to be one. -/
  | emptySelector
  /-- Nothing after a combinator. -/
  | danglingCombinator
  /-- Something else where a name has to stand. -/
  | expectedIdentifier
  | invalidAttributeOperator
  | unexpectedToken (t : Token)
  /-- The end inside a selector. -/
  | unexpectedEnd
deriving DecidableEq, Repr

def Cause.message : Cause → String
  | .emptySelector => "empty selector"
  | .danglingCombinator => "combinator without a right operand"
  | .expectedIdentifier => "expected an identifier"
  | .invalidAttributeOperator => "invalid attribute operator"
  | .unexpectedToken t => "unexpected token `" ++ t.shown ++ "`"
  | .unexpectedEnd => "unexpected end of input"

structure Failure (P : Type) where
  cause : Cause
  place : P
deriving DecidableEq, Repr

/-! ## Remarks -/

/-- What a text asks for and no tree of this library can say. -/
inductive Unsupported (P : Type) where
  /-- `ns|*` for a single namespace, or for none. -/
  | universalIn (ns : Namespace)
  /-- An attribute selector with flags after its operand. -/
  | attributeFlags (name : String)
  /-- A pseudo-element with one colon. -/
  | legacyPseudoElement (name : String)
  | pseudoElement (name : String)
  | pseudoElementFunction (name : String)
  /-- More than one simple selector inside `:not()`. -/
  | compoundNegation (place : P)
  /-- A remark of its own on what stands inside `:not()`. -/
  | unsupportedNegation (place : P)
  /-- More than one simple selector on the left of a combinator. -/
  | compoundBefore (link : Combinator) (place : P)
deriving DecidableEq, Repr

/-- A namespace as a message shows it. -/
def Namespace.shown : Namespace → String
  | .any => "Any"
  | .absent => "None"
  | .named label => "Named(" ++ Text.quoted label ++ ")"

/-- A combinator as a message shows it. -/
def Combinator.shown : Combinator → String
  | .descendant => "Descendant"
  | .child => "Child"
  | .adjacentSibling => "AdjacentSibling"
  | .generalSibling => "GeneralSibling"

def Unsupported.message {P : Type} (locate : P → Locator) : Unsupported P → String
  | .universalIn ns => "namespaced universal selector " ++ ns.shown ++ "|* is unsupported; never matches"
  | .attributeFlags name => "attribute selector [" ++ name ++ "] with case flags is unsupported; never matches"
  | .legacyPseudoElement name => "pseudo-element :" ++ name ++ " is unsupported; never matches"
  | .pseudoElement name => "pseudo-element ::" ++ name ++ " is unsupported; never matches"
  | .pseudoElementFunction name => "pseudo-element ::" ++ name ++ "() is unsupported; never matches"
  | .compoundNegation place =>
    "compound selector inside :not() at " ++ (locate place).display ++ " is unsupported; never matches"
  | .unsupportedNegation place =>
    "unsupported argument to :not() at " ++ (locate place).display ++ "; never matches"
  | .compoundBefore link place =>
    "compound selector left of " ++ link.shown ++ " at " ++ (locate place).display ++
      " is unsupported; never matches"

/-! ## Reports -/

structure Report (P α : Type) where
  remarks : List (Unsupported P)
  result : Except (Failure P) α

namespace Report

variable {P α β : Type}

def ok (a : α) : Report P α := ⟨[], .ok a⟩

def fail (e : Failure P) : Report P α := ⟨[], .error e⟩

/-- A remark, and then the rest. -/
def remark (why : Unsupported P) (r : Report P α) : Report P α := ⟨why :: r.remarks, r.result⟩

def bind (r : Report P α) (f : α → Report P β) : Report P β :=
  match r.result with
  | .error e => ⟨r.remarks, .error e⟩
  | .ok a => ⟨r.remarks ++ (f a).remarks, (f a).result⟩

def map (f : α → β) (r : Report P α) : Report P β := ⟨r.remarks, r.result.map f⟩

@[simp] theorem ok_bind (a : α) (f : α → Report P β) : (ok a).bind f = f a := rfl

@[simp] theorem fail_bind (e : Failure P) (f : α → Report P β) : (fail e).bind f = fail e := rfl

theorem bind_eq_ok {r : Report P α} {f : α → Report P β} {b : β} (h : (r.bind f).result = .ok b) :
    ∃ a, r.result = .ok a ∧ (f a).result = .ok b := by
  cases hr : r.result with
  | error e => simp [bind, hr] at h
  | ok a => exact ⟨a, rfl, by simpa [bind, hr] using h⟩

theorem map_eq_ok {r : Report P α} {f : α → β} {b : β} (h : (r.map f).result = .ok b) :
    ∃ a, r.result = .ok a ∧ f a = b := by
  cases hr : r.result with
  | error e => simp [map, hr, Except.map] at h
  | ok a => exact ⟨a, rfl, by simpa [map, hr, Except.map] using h⟩

theorem bind_ok {r : Report P α} {f : α → Report P β} {a : α} (h : r.result = .ok a) :
    (r.bind f).result = (f a).result := by
  rw [bind, h]

theorem remarks_bind {r : Report P α} {f : α → Report P β} {a : α} (h : r.result = .ok a) :
    (r.bind f).remarks = r.remarks ++ (f a).remarks := by
  rw [bind, h]

theorem bind_of_ok {r : Report P α} {f : α → Report P β} {a : α} (h : r.result = .ok a) :
    r.bind f = ⟨r.remarks ++ (f a).remarks, (f a).result⟩ := by
  rw [bind, h]

theorem bind_of_error {r : Report P α} {f : α → Report P β} {e : Failure P} (h : r.result = .error e) :
    r.bind f = ⟨r.remarks, .error e⟩ := by
  rw [bind, h]

theorem bind_eq_error {r : Report P α} {f : α → Report P β} {e : Failure P} (h : (r.bind f).result = .error e) :
    r.result = .error e ∨ ∃ a, r.result = .ok a ∧ (f a).result = .error e := by
  cases hr : r.result with
  | error f =>
    rw [bind_of_error hr] at h
    cases h
    exact .inl rfl
  | ok a =>
    rw [bind_of_ok hr] at h
    exact .inr ⟨a, rfl, h⟩

theorem map_eq_error {r : Report P α} {f : α → β} {e : Failure P} (h : (r.map f).result = .error e) :
    r.result = .error e := by
  cases hr : r.result with
  | error f =>
    rw [map, hr] at h
    cases h
    rfl
  | ok a =>
    rw [map, hr] at h
    cases h

theorem bind_error {r : Report P α} {f : α → Report P β}
    (h : (∃ e, r.result = .error e) ∨ ∀ a, ∃ e, (f a).result = .error e) :
    ∃ e, (r.bind f).result = .error e := by
  cases hr : r.result with
  | error e => exact ⟨e, by rw [bind, hr]⟩
  | ok a =>
    rcases h with ⟨e, he⟩ | h
    · cases hr.symm.trans he
    · obtain ⟨e, he⟩ := h a
      exact ⟨e, by rw [bind, hr]; exact he⟩

end Report

end StyleSelectors
