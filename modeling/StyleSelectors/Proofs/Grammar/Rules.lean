/-
The grammar of selectors, as rules. Each rule says which nodes make up a phrase and what the phrase
denotes: a prefix a namespace, a part a simple selector, parts with nothing between them a list of
these, and a chain of such compounds a complex selector with its combinators, which is a tree. Phrases
are put together by `++`, so that nothing stands between two of them but what a rule puts there. The
rules share nothing with what reads them but tokens, nodes and trees. Nodes are without comments, and
their blocks are closed; `Node.tokensOf` are the tokens that they stand for.
-/
import StyleSelectors.Grammar.Parser
import StyleSelectors.Proofs.Text.Ascii
import StyleSelectors.Proofs.Token.Separator
import StyleSelectors.Proofs.Token.Trim

namespace StyleSelectors

open Text

variable {P : Type}

namespace Node

/-- The nodes inside a block. -/
def inside : Node P → List (Node P)
  | .leaf .. => []
  | .block _ _ _ inside .. => inside

/-- What is inside a block, as it was written. -/
def written : Node P → List Component
  | .leaf .. => []
  | .block _ _ _ _ _ _ written => written

end Node

theorem Cursor.rest_inside (n : Node P) : (Cursor.inside n).rest = n.inside := by cases n <;> rfl

theorem Cursor.arguments_eq (n : Node P) :
    Cursor.arguments n = String.ofList (trim (Component.chars n.written)) := by
  cases n <;> rfl

namespace Grammar

def Blank (ts : List Token) : Prop := ∀ t ∈ ts, ∃ text, t = .whitespace text

theorem blank_iff {ts : List Token} : Blank ts ↔ ∀ t ∈ ts, t.isWhitespace = true :=
  forall₂_congr fun t _ => by cases t <;> simp [Token.isWhitespace]

/-- A written namespace. -/
inductive Prefix : List Token → Namespace → Prop
  | absent : Prefix [.delim '|'] .absent
  | named (label : String) : Prefix [.ident label, .delim '|'] (.named label)
  | any : Prefix [.delim '*', .delim '|'] .any

/-! ## Attributes -/

/-- The name of an attribute, which is without a namespace where none is written. -/
inductive AttributeName : List Token → Namespace → String → Prop
  | plain (name : String) : AttributeName [.ident name] .absent name
  | prefixed {ts : List Token} {ns : Namespace} (h : Prefix ts ns) (name : String) :
    AttributeName (ts ++ [.ident name]) ns name

inductive Operator : Token → (String → ValueTest) → Prop
  | equals : Operator (.delim '=') .equals
  | matching (op : MatchOperator) : Operator (.matching op) (.matching op)

inductive Operand : Token → String → Prop
  | ident (value : String) : Operand (.ident value) value
  | string (value : String) : Operand (.string value) value

/-- What stands between square brackets, and whether it has flags. Blanks are allowed between all
but the parts of the name. -/
inductive AttributeBody : List Token → AttributeSelector → Bool → Prop
  | present {a xs b : List Token} {ns : Namespace} {name : String} (ha : Blank a)
    (hname : AttributeName xs ns name) (hb : Blank b) : AttributeBody (a ++ xs ++ b) ⟨ns, name, .present⟩ false
  | test {a xs b c d : List Token} {ns : Namespace} {name : String} {op operand : Token} {test : String → ValueTest}
    {value : String} (ha : Blank a) (hname : AttributeName xs ns name) (hb : Blank b) (hop : Operator op test)
    (hc : Blank c) (hoperand : Operand operand value) (hd : Blank d) :
    AttributeBody (a ++ xs ++ (b ++ op :: (c ++ operand :: d))) ⟨ns, name, test value⟩ false
  | flagged {a xs b c d e : List Token} {ns : Namespace} {name : String} {op operand : Token}
    {test : String → ValueTest} {value : String} (ha : Blank a) (hname : AttributeName xs ns name) (hb : Blank b)
    (hop : Operator op test) (hc : Blank c) (hoperand : Operand operand value) (hd : Blank d) (flag : String)
    (he : Blank e) :
    AttributeBody (a ++ xs ++ (b ++ op :: (c ++ operand :: (d ++ .ident flag :: e)))) ⟨ns, name, test value⟩ true

/-! ## Simple selectors -/

/-- A type or the universal selector without a prefix, where types without one are in `ns`. -/
inductive Bare (ns : Namespace) : Token → Simple → Prop
  | type (name : String) : Bare ns (.ident name) (.type ⟨ns, name⟩)
  | universal : Bare ns (.delim '*') .universal

/-- The names of pseudo-elements that one colon is enough for. -/
def legacyNames : List String := ["before", "after", "first-line", "first-letter"]

/-- Any other simple selector but a negation. What is well formed and has no tree denotes nothing: a
universal selector for some namespaces only, flags, and pseudo-elements. The arguments of a function are
the text inside it without the blanks at the ends. -/
inductive Part : List (Node P) → Simple → Prop
  | type {xs : List (Node P)} {ts : List Token} {ns : Namespace} (h : Prefix ts ns) (name : String)
    (hxs : xs.map Node.token = ts ++ [.ident name]) : Part xs (.type ⟨ns, name⟩)
  | universal {xs : List (Node P)} {ts : List Token} {ns : Namespace} (h : Prefix ts ns)
    (hxs : xs.map Node.token = ts ++ [.delim '*']) : Part xs (if ns = .any then .universal else .nothing)
  | id {n : Node P} (name : String) (hn : n.token = .idHash name) : Part [n] (.id name)
  | className {xs : List (Node P)} (name : String) (hxs : xs.map Node.token = [.delim '.', .ident name]) :
    Part xs (.className name)
  | attr {n : Node P} {a : AttributeSelector} {flagged : Bool} (hn : n.token = .opening .square)
    (h : AttributeBody (n.inside.map Node.token) a flagged) : Part [n] (if flagged then .nothing else .attr a)
  | pseudoClass {xs : List (Node P)} (name : String) (hxs : xs.map Node.token = [.colon, .ident name]) :
    Part xs (if name.toLower ∈ legacyNames then .nothing else .pseudoClass name.toLower)
  | function {c n : Node P} {name arguments : String} (hc : c.token = .colon) (hn : n.token = .function name)
    (hnot : name.toLower ≠ "not") (harguments : Trimmed (Component.chars n.written) arguments.toList) :
    Part [c, n] (.function name.toLower arguments)
  | pseudoElement {xs : List (Node P)} (name : String) (hxs : xs.map Node.token = [.colon, .colon, .ident name]) :
    Part xs .nothing
  | pseudoElementFunction {xs : List (Node P)} (name : String)
    (hxs : xs.map Node.token = [.colon, .colon, .function name]) : Part xs .nothing

theorem sameIgnoringCase_not_iff (name : String) : sameIgnoringCase name "not" = true ↔ name.toLower = "not" := by
  rw [sameIgnoringCase, beq_iff_eq, show lower "not" = "not" by decide, toLower_eq_lower]

theorem toLower_not : "not".toLower = "not" := by
  rw [toLower_eq_lower]
  decide

theorem contains_legacyPseudoElements_iff (name : String) :
    Cursor.legacyPseudoElements.contains name = true ↔ name ∈ legacyNames := by
  rw [List.contains_iff_mem]
  rfl

theorem arguments_of_trimmed {n : Node P} {arguments : String}
    (h : Trimmed (Component.chars n.written) arguments.toList) : Cursor.arguments n = arguments := by
  rw [Cursor.arguments_eq, ← trimmed_iff.1 h, String.ofList_toList]

/-- A function whose name and arguments are known as they are kept. -/
theorem Part.of_function {c n : Node P} {name kept arguments : String} (hc : c.token = .colon)
    (hn : n.token = .function name) (hname : lower name = kept) (hnot : kept ≠ "not")
    (harguments : trim (Component.chars n.written) = arguments.toList) : Part [c, n] (.function kept arguments) := by
  rw [← hname, ← toLower_eq_lower] at hnot ⊢
  exact .function hc hn hnot (trimmed_iff.2 harguments.symm)

theorem trimmed_arguments (n : Node P) : Trimmed (Component.chars n.written) (Cursor.arguments n).toList := by
  rw [Cursor.arguments_eq, String.toList_ofList]
  exact trimmed_trim _

/-- What the negation of a compound denotes: that of a single simple selector, if this denotes
anything. -/
def negated : List Simple → Simple
  | [s] => if s = .nothing then .nothing else .negation s
  | _ => .nothing

/-- What would make a prefix of a name before it is not ahead. -/
def NoBar (xs : List (Node P)) : Prop := ∀ n ∈ xs.head?, n.token ≠ .delim '|'

theorem NoBar.nil : NoBar ([] : List (Node P)) := nofun

/-- Simple selectors with nothing between them. -/
inductive Parts (ns : Namespace) : List (Node P) → List Simple → Prop
  | nil : Parts ns [] []
  | bare {n : Node P} {s : Simple} {ys : List (Node P)} {ss : List Simple} (hn : Bare ns n.token s) (hbar : NoBar ys)
    (hys : Parts ns ys ss) : Parts ns (n :: ys) (s :: ss)
  | part {xs ys : List (Node P)} {s : Simple} {ss : List Simple} (hxs : Part xs s) (hys : Parts ns ys ss) :
    Parts ns (xs ++ ys) (s :: ss)
  | negation {c n : Node P} {name : String} {a xs b ys : List (Node P)} {t : Simple} {ts ss : List Simple}
    (hc : c.token = .colon) (hn : n.token = .function name) (hnot : name.toLower = "not")
    (hinside : n.inside = a ++ xs ++ b) (ha : Blank (a.map Node.token)) (hxs : Parts ns xs (t :: ts))
    (hb : Blank (b.map Node.token)) (hys : Parts ns ys ss) : Parts ns (c :: n :: ys) (negated (t :: ts) :: ss)

/-! ## How parts start -/

theorem Prefix.startsPart {ts : List Token} {ns : Namespace} (h : Prefix ts ns) :
    ∃ t us, ts = t :: us ∧ t.StartsPart := by
  cases h with
  | absent => exact ⟨_, _, rfl, .inr (.inl rfl)⟩
  | named label => exact ⟨_, _, rfl, trivial⟩
  | any => exact ⟨_, _, rfl, .inl rfl⟩

theorem Bare.startsPart {ns : Namespace} {t : Token} {s : Simple} (h : Bare ns t s) : t.StartsPart := by
  cases h with
  | type name => trivial
  | universal => exact .inl rfl

theorem startsPart_of_tokens {xs : List (Node P)} {t : Token} {ts : List Token} (h : xs.map Node.token = t :: ts)
    (ht : t.StartsPart) : ∃ n rest, xs = n :: rest ∧ n.token.StartsPart := by
  obtain ⟨n, rest, rfl, rfl, -⟩ := List.map_eq_cons_iff.1 h
  exact ⟨n, rest, rfl, ht⟩

theorem Part.startsPart {xs : List (Node P)} {s : Simple} (h : Part xs s) :
    ∃ n rest, xs = n :: rest ∧ n.token.StartsPart := by
  cases h with
  | type hns _ hxs | universal hns hxs =>
    obtain ⟨t, us, rfl, ht⟩ := hns.startsPart
    exact startsPart_of_tokens hxs ht
  | id name hn => exact ⟨_, _, rfl, by rw [hn]; trivial⟩
  | className name hxs => exact startsPart_of_tokens hxs (.inr (.inr rfl))
  | attr hn => exact ⟨_, _, rfl, by rw [hn]; rfl⟩
  | function hc => exact ⟨_, _, rfl, by rw [hc]; trivial⟩
  | pseudoClass _ hxs | pseudoElement _ hxs | pseudoElementFunction _ hxs => exact startsPart_of_tokens hxs trivial

/-- A compound starts as its first part does. -/
theorem Parts.startsPart {ns : Namespace} {xs : List (Node P)} {s : Simple} {ss : List Simple}
    (h : Parts ns xs (s :: ss)) : ∃ n rest, xs = n :: rest ∧ n.token.StartsPart := by
  cases h with
  | bare hn => exact ⟨_, _, rfl, hn.startsPart⟩
  | part hxs =>
    obtain ⟨n, rest, rfl, hn⟩ := hxs.startsPart
    exact ⟨n, _, rfl, hn⟩
  | negation hc => exact ⟨_, _, rfl, by rw [hc]; trivial⟩

/-! ## Complex selectors -/

inductive Sign : Token → Combinator → Prop
  | child : Sign (.delim '>') .child
  | adjacentSibling : Sign (.delim '+') .adjacentSibling
  | generalSibling : Sign (.delim '~') .generalSibling

/-- What stands between two compounds. -/
inductive Link : List Token → Combinator → Prop
  | blanks {a : List Token} (ha : Blank a) (hne : a ≠ []) : Link a .descendant
  | sign {a b : List Token} {t : Token} {link : Combinator} (ha : Blank a) (ht : Sign t link) (hb : Blank b) :
    Link (a ++ t :: b) link

/-- Compounds with combinators between them, and blanks at the end. A compound is where its first
node starts. -/
inductive Chain (ns : Namespace) : List (Node P) → Complex P → Prop
  | subject {n : Node P} {xs b : List (Node P)} {s : Simple} {ss : List Simple} (hxs : Parts ns (n :: xs) (s :: ss))
    (hb : Blank (b.map Node.token)) : Chain ns (n :: xs ++ b) (.subject ⟨n.start, s, ss⟩)
  | link {n : Node P} {xs ys zs : List (Node P)} {s : Simple} {ss : List Simple} {link : Combinator} {x : Complex P}
    (hxs : Parts ns (n :: xs) (s :: ss)) (hys : Link (ys.map Node.token) link) (hzs : Chain ns zs x) :
    Chain ns (n :: xs ++ (ys ++ zs)) (.link ⟨n.start, s, ss⟩ link x)

theorem Chain.startsPart {ns : Namespace} {xs : List (Node P)} {x : Complex P} (h : Chain ns xs x) :
    ∃ n rest, xs = n :: rest ∧ n.token.StartsPart := by
  cases h with
  | subject hxs | link hxs =>
    obtain ⟨n, rest, heq, hn⟩ := hxs.startsPart
    cases heq
    exact ⟨_, _, rfl, hn⟩

end Grammar

/-! ## Trees -/

namespace Complex

/-- Whether each compound before a combinator is a single simple selector. -/
def simpleOnLeft : Complex P → Bool
  | .subject _ => true
  | .link k _ rest => k.others.isEmpty && rest.simpleOnLeft

/-- Simple selectors on the same element, nested from the right with one locator for all. -/
def joined (locator : Locator) (first : Simple) : List Simple → Selector
  | [] => .simple first
  | second :: rest => .both first (joined locator second rest) (some locator)

theorem conjunction_eq_joined (locator : Locator) (first : Simple) (others : List Simple) :
    .conjunction (some locator) first others = joined locator first others := by
  induction others generalizing first with
  | nil => rfl
  | cons second rest ih => exact congrArg (Selector.both first · (some locator)) (ih second)

/-- The combinators nested from the right, around the simple selectors of the subject. -/
def nested (locate : P → Locator) : Complex P → Selector
  | .subject k => joined (locate k.place) k.first k.others
  | .link k combinator rest => .related combinator k.first (rest.nested locate) (some (locate k.place))

/-- The tree that a complex selector denotes, which is nothing where a compound is on the left. -/
def denoted (locate : P → Locator) (x : Complex P) : Selector :=
  if x.simpleOnLeft then x.nested locate else .simple .nothing

end Complex

/-- A place as options tell it: lines count from 1, and those of the source before the text count too, up to
the greatest number of 32 bits. -/
def Options.told (o : Options) (p : Position) : Locator :=
  ⟨p.offset, min 0xFFFFFFFF (p.line + o.lineOffset + 1), p.column, o.source⟩

theorem Options.locate_eq_told (o : Options) : o.locate = o.told := rfl

/-- Whether nodes are a selector between blanks, and denote a tree. -/
def Grammar.Denotes (ns : Namespace) (locate : P → Locator) (xs : List (Node P)) (s : Selector) : Prop :=
  ∃ a ys x, xs = a ++ ys ∧ Blank (a.map Node.token) ∧ Chain ns ys x ∧ x.denoted locate = s

end StyleSelectors
