/-
The text of one simple selector as components. A legible simple selector reads back, token by token,
in front of whatever does not go on with its last one (`Simple.readFrom_components`); what a
combinator has to look out for in the text after it never starts one (`Simple.leads`).
-/
import StyleSelectors.Proofs.Component.ReadFrom
import StyleSelectors.Proofs.Selector.Legible

namespace StyleSelectors

open Text Numeric Token Component

/-! ## Before and after -/

/-- Whether nothing ahead goes on with the last token of a part. -/
def Halts (rest : List Char) : Prop :=
  endsName rest = true ∧ ∀ c ∈ rest.head?, c ≠ '(' ∧ c ≠ '=' ∧ c ≠ '>'

theorem halts_nil : Halts [] := ⟨rfl, nofun⟩

theorem halts_cons {c : Char} (hname : isNameChar c = false ∧ c ≠ '\\')
    (hc : c ≠ '(' ∧ c ≠ '=' ∧ c ≠ '>') (rest : List Char) : Halts (c :: rest) := by
  constructor
  · simp [endsName, hname]
  · intro d hd
    cases hd
    exact hc

/-- Whether an identifier ends before a text. -/
structure EndsIdent (name : String) (rest : List Char) : Prop where
  endsName : endsName rest = true
  ne_open : rest.head? ≠ some '('
  ne_greater : name = "--" → rest.head? ≠ some '>'

theorem Halts.endsIdent {rest : List Char} (h : Halts rest) (name : String) : EndsIdent name rest where
  endsName := h.1
  ne_open := fun hc => (h.2 _ hc).1 rfl
  ne_greater := fun _ hc => (h.2 _ hc).2.2 rfl

/-- Whether the last token of a simple selector ends before a text. -/
def Simple.Follow : Simple → List Char → Prop
  | .universal, rest => rest.head? ≠ some '='
  | .type t, rest => EndsIdent t.name rest
  | .className name, rest | .pseudoClass name, rest => EndsIdent name rest
  | .id _, rest => endsName rest = true
  | _, _ => True

theorem Halts.follow {rest : List Char} (h : Halts rest) (s : Simple) : s.Follow rest := by
  cases s with
  | universal => exact fun hc => (h.2 _ hc).2.1 rfl
  | type t => exact h.endsIdent t.name
  | className name | pseudoClass name => exact h.endsIdent name
  | id name => exact h.1
  | _ => trivial

/-- Whether a text starts with nothing that a combinator before it would take in. -/
structure Leads (cs : List Char) : Prop where
  not_space : cs.head?.any isSpace = false
  ne_equals : cs.head? ≠ some '='
  not_number : startsUnsigned cs = false

theorem readsBack_combinator (link : Combinator) {rest : List Char} (h : Leads rest) :
    link.token.ReadsBack rest := by
  cases link with
  | descendant => exact readsBack_space h.not_space
  | child => exact readsBack_greater
  | adjacentSibling => exact readsBack_plus h.not_number
  | generalSibling => exact readsBack_sign .word h.ne_equals

/-! ## Identifiers -/

/-- The characters that the text of an identifier starts with. -/
def StartsIdent (c : Char) : Prop := isNameStart c = true ∨ c = '-' ∨ c = '\\'

theorem IsName.text_cons {name : String} (h : IsName name) :
    ∃ c cs, (Token.ident name).text = c :: cs ∧ StartsIdent c := by
  have hne := toList_ne_nil h.1
  obtain ⟨c, cs, htext⟩ := List.exists_cons_of_ne_nil (writeIdentifier_ne_nil hne)
  refine ⟨c, cs, htext, ?_⟩
  have hstart := startsName_writeIdentifier hne []
  rw [htext, List.append_nil] at hstart
  rcases startsName_cases hstart with hc | hc | ⟨hc, -⟩
  · exact .inl hc
  · exact .inr (.inr hc)
  · exact .inr (.inl hc)

theorem StartsIdent.toNat {c : Char} (h : StartsIdent c) :
    (65 ≤ c.toNat ∧ c.toNat ≤ 90) ∨ (97 ≤ c.toNat ∧ c.toNat ≤ 122) ∨ c.toNat = 95 ∨ c.toNat = 0 ∨
      128 ≤ c.toNat ∨ c.toNat = 45 ∨ c.toNat = 92 := by
  simp only [StartsIdent, isNameStart_iff, eq_iff_toNat, Char.reduceToNat] at h
  omega

theorem StartsIdent.leads {c : Char} (h : StartsIdent c) (rest : List Char) : Leads (c :: rest) := by
  have hc := h.toNat
  refine ⟨?_, ?_, ?_⟩
  · rw [List.head?_cons, Option.any_some, Bool.eq_false_iff, ne_eq, isSpace_iff]
    omega
  · rw [List.head?_cons, ne_eq, Option.some_inj, eq_iff_toNat]
    simp only [Char.reduceToNat]
    omega
  · exact startsUnsigned_of_isNameStart h rest

theorem StartsIdent.not_isDigit {c : Char} (h : StartsIdent c) : c.isDigit = false := by
  have hc := h.toNat
  rw [Bool.eq_false_iff, ne_eq, isDigit_iff]
  omega

theorem readFrom_ident {name : String} (h : IsName name) {rest : List Char} (hrest : EndsIdent name rest) :
    ReadFrom [ofToken (.ident name)] (Token.ident name).text rest :=
  readFrom_ofToken (readsBack_ident h.1 h.2 (readName_of_endsName hrest.endsName) hrest.ne_open hrest.ne_greater)

/-- A namespace and the name after it. -/
theorem readFrom_qualified {ns : Namespace} (implicit : Namespace) (hns : ns.Legible) {name : String}
    (hname : IsName name) {ts : List Token} (hts : ∀ next ∈ ts.head?, (Token.ident name).runsInto next = false)
    {cs : List Component} {rest : List Char} (h : ReadFrom cs (serialize (.ident name :: ts)) rest) :
    ReadFrom ((ns.tokens implicit).map ofToken ++ cs) (serialize (ns.tokens implicit ++ .ident name :: ts)) rest := by
  obtain ⟨c, tail, htext, hc⟩ := hname.text_cons
  have hbar : (delim '|').ReadsBack (serialize (.ident name :: ts) ++ rest) := by
    refine readsBack_sign .dash ?_
    rw [serialize_cons hts, htext]
    exact (hc.leads _).ne_equals
  have hafter : ReadFrom (ofToken (.delim '|') :: cs) (serialize (.delim '|' :: .ident name :: ts)) rest := by
    rw [serialize_cons (fun next hnext => by cases hnext; rfl)]
    exact readFrom_cons hbar h
  unfold Namespace.tokens
  split
  · exact h
  cases ns with
  | any =>
    show ReadFrom (ofToken (.delim '*') :: ofToken (.delim '|') :: cs)
      (serialize (.delim '*' :: .delim '|' :: .ident name :: ts)) rest
    rw [serialize_cons (fun next hnext => by cases hnext; rfl)]
    refine readFrom_cons (readsBack_sign .part ?_) hafter
    rw [serialize_cons (fun next hnext => by cases hnext; rfl)]
    exact nofun
  | absent => exact hafter
  | named label =>
    show ReadFrom (ofToken (.ident label) :: ofToken (.delim '|') :: cs)
      (serialize (.ident label :: .delim '|' :: .ident name :: ts)) rest
    rw [serialize_cons (fun next hnext => by cases hnext; rfl)]
    refine readFrom_cons ?_ hafter
    rw [serialize_cons (fun next hnext => by cases hnext; rfl)]
    exact readsBack_ident hns.1 hns.2 (readName_of_endsName rfl) nofun nofun

/-! ## Simple selectors -/

/-- What stands between the brackets of an attribute selector. -/
def AttributeSelector.body (a : AttributeSelector) : List Token :=
  a.ns.tokens .absent ++ .ident a.name :: a.test.tokens

namespace Simple

/-- A simple selector as the blocks that its text reads as. -/
def components : Simple → List Component
  | .function name arguments => ofToken .colon :: Component.ofChars (functionText name arguments)
  | .negation inner => [ofToken .colon, enclose (.function "not") inner.components]
  | .attr a => [enclose (.opening .square) (a.body.map ofToken)]
  | .nothing => [ofToken .colon, enclose (.function "not") [ofToken (.delim '*')]]
  | s => s.tokens.map ofToken

theorem readFrom_block {cs : List Component} {ts : List Token} {rest : List Char}
    (h : ReadFrom cs (serialize ts) (')' :: rest)) :
    ReadFrom [ofToken .colon, enclose (.function "not") cs]
      (serialize (.colon :: .function "not" :: ts ++ [.closing .round])) rest := by
  rw [serialize_append_closing, serialize_cons (fun next hnext => by cases hnext; rfl),
    serialize_cons (fun _ _ => rfl), List.append_assoc]
  refine readFrom_cons readsBack_colon ?_
  refine readFrom_enclose rfl (readsBack_function (by decide) (by decide) fun hurl => ?_) h
  exact absurd hurl (by decide)

theorem readFrom_test {test : ValueTest} (h : test.Legible) (rest : List Char) :
    ReadFrom (test.tokens.map ofToken) (serialize test.tokens) rest := by
  cases test with
  | present => exact readFrom_nil
  | equals operand =>
    show ReadFrom [ofToken (.delim '='), ofToken (.string operand)] _ rest
    rw [ValueTest.tokens, serialize_cons (fun next hnext => by cases hnext; rfl)]
    exact readFrom_cons readsBack_equals (readFrom_ofToken (readsBack_string h))
  | matching op operand =>
    show ReadFrom [ofToken (.matching op), ofToken (.string operand)] _ rest
    rw [ValueTest.tokens, serialize_cons (fun next hnext => by cases hnext; rfl)]
    exact readFrom_cons (readsBack_matching op) (readFrom_ofToken (readsBack_string h))

/-- A name ends before the test of an attribute selector. -/
theorem endsIdent_test (test : ValueTest) (name : String) (rest : List Char) :
    EndsIdent name (serialize test.tokens ++ ']' :: rest) := by
  cases test with
  | present => exact (halts_cons (by decide) (by decide) rest).endsIdent name
  | equals operand => exact ⟨rfl, nofun, fun _ => nofun⟩
  | matching op operand => cases op <;> exact ⟨rfl, nofun, fun _ => nofun⟩

theorem runsInto_test (test : ValueTest) (name : String) :
    ∀ next ∈ test.tokens.head?, (Token.ident name).runsInto next = false := by
  intro next hnext
  cases test <;> cases hnext <;> rfl

theorem readFrom_attr {a : AttributeSelector} (h : a.Legible) (rest : List Char) :
    ReadFrom (Simple.attr a).components (serialize a.tokens) rest := by
  have hname : ReadFrom (ofToken (.ident a.name) :: a.test.tokens.map ofToken)
      (serialize (.ident a.name :: a.test.tokens)) (']' :: rest) := by
    rw [serialize_cons (runsInto_test a.test a.name)]
    have hends := endsIdent_test a.test a.name rest
    have hstop := readName_of_endsName hends.endsName
    exact readFrom_cons (readsBack_ident h.name.1 h.name.2 hstop hends.ne_open hends.ne_greater)
      (readFrom_test h.test _)
  have hbody := readFrom_qualified .absent h.ns h.name (runsInto_test a.test a.name) hname
  have htokens : a.tokens = .opening .square :: a.body ++ [.closing .square] := by
    simp [AttributeSelector.tokens, AttributeSelector.body]
  rw [htokens, serialize_append_closing, serialize_cons (fun _ _ => rfl)]
  refine readFrom_enclose rfl (readsBack_opening .square) ?_
  rw [AttributeSelector.body, List.map_append]
  exact hbody

/-- The text of a legible simple selector reads as its blocks. -/
theorem readFrom_components {s : Simple} (h : s.Legible) {rest : List Char} (hrest : s.Follow rest) :
    ReadFrom s.components (serialize s.tokens) rest := by
  induction s generalizing rest with
  | universal => exact readFrom_ofToken (readsBack_sign .part hrest)
  | type t =>
    have hname : ReadFrom [ofToken (.ident t.name)] (serialize [.ident t.name]) rest := readFrom_ident h.2 hrest
    show ReadFrom (t.tokens.map ofToken) _ rest
    rw [TypeName.tokens, List.map_append]
    exact readFrom_qualified .any h.1 h.2 (fun next hnext => by cases hnext) hname
  | id name => exact readFrom_ofToken (readsBack_idHash h.1 h.2 (readName_of_endsName hrest))
  | className name =>
    obtain ⟨c, cs, htext, hc⟩ := h.text_cons
    show ReadFrom [ofToken (.delim '.'), ofToken (.ident name)] (serialize [.delim '.', .ident name]) rest
    rw [serialize_cons (fun next hnext => by cases hnext; rfl)]
    refine readFrom_cons (readsBack_point ?_) (readFrom_ident h hrest)
    rw [serialize, htext]
    exact hc.not_isDigit
  | pseudoClass name =>
    show ReadFrom [ofToken .colon, ofToken (.ident name)] (serialize [.colon, .ident name]) rest
    rw [serialize_cons (fun next hnext => by cases hnext; rfl)]
    exact readFrom_cons readsBack_colon (readFrom_ident h.isName hrest)
  | function name arguments =>
    have hclosed := h.closed
    unfold staysClosed at hclosed
    split at hclosed
    · next head inside close heq =>
      -- its text closes the block that it opens, and reads the same before any other
      have hopen : head.token.opens? = some .round := by rw [beq_iff_eq.1 hclosed]; rfl
      have hread := readFrom_ofChars hopen heq rest
      show ReadFrom (ofToken .colon :: Component.ofChars (functionText name arguments))
        (serialize (.colon :: .function name :: closedTokens arguments ++ [.closing .round])) rest
      rw [List.cons_append, serialize_cons (fun next hnext => by cases hnext; rfl)]
      exact readFrom_cons readsBack_colon hread
    · cases hclosed
  | negation inner ih =>
    exact readFrom_block (ih h ((halts_cons (by decide) (by decide) rest).follow inner))
  | attr a => exact readFrom_attr h rest
  | nothing =>
    have hstar : ReadFrom [ofToken (.delim '*')] (serialize [.delim '*']) (')' :: rest) :=
      readFrom_ofToken (readsBack_sign .part fun h => absurd (Option.some.inj h) (by decide))
    exact readFrom_block hstar

/-! ## Blocks -/

/-- Whether a token stands for itself: it is no comment, and neither opens nor closes a block. -/
structure Flat (t : Token) : Prop where
  opens? : t.opens? = none
  closes? : t.closes? = none
  not_comment : t.isComment = false

theorem flat_of_mem_namespace {ns implicit : Namespace} {t : Token} (h : t ∈ ns.tokens implicit) : Flat t := by
  unfold Namespace.tokens at h
  split at h
  · cases h
  cases ns with
  | any | named _ =>
    rcases List.mem_cons.1 h with rfl | h
    · exact ⟨rfl, rfl, rfl⟩
    · cases List.mem_singleton.1 h
      exact ⟨rfl, rfl, rfl⟩
  | absent =>
    cases List.mem_singleton.1 h
    exact ⟨rfl, rfl, rfl⟩

theorem flat_of_mem_test {test : ValueTest} {t : Token} (h : t ∈ test.tokens) : Flat t := by
  cases test with
  | present => cases h
  | equals _ | matching _ _ =>
    rcases List.mem_cons.1 h with rfl | h
    · exact ⟨rfl, rfl, rfl⟩
    · cases List.mem_singleton.1 h
      exact ⟨rfl, rfl, rfl⟩

theorem flat_of_mem_body {a : AttributeSelector} {t : Token} (h : t ∈ a.body) : Flat t := by
  rcases List.mem_append.1 h with h | h
  · exact flat_of_mem_namespace h
  · rcases List.mem_cons.1 h with rfl | h
    · exact ⟨rfl, rfl, rfl⟩
    · exact flat_of_mem_test h

/-- Whether a simple selector is written without brackets. -/
def isFlat : Simple → Bool
  | .universal | .type _ | .id _ | .className _ | .pseudoClass _ => true
  | _ => false

theorem flat_of_mem_tokens {s : Simple} (h : s.isFlat = true) {t : Token} (ht : t ∈ s.tokens) : Flat t := by
  cases s with
  | universal | id _ =>
    cases List.mem_singleton.1 ht
    exact ⟨rfl, rfl, rfl⟩
  | type u =>
    rcases List.mem_append.1 ht with ht | ht
    · exact flat_of_mem_namespace ht
    · cases List.mem_singleton.1 ht
      exact ⟨rfl, rfl, rfl⟩
  | className _ | pseudoClass _ =>
    rcases List.mem_cons.1 ht with rfl | ht
    · exact ⟨rfl, rfl, rfl⟩
    · cases List.mem_singleton.1 ht
      exact ⟨rfl, rfl, rfl⟩
  | _ => cases h

theorem isFlat_of_dashed {s : Simple} (h : s.dashed = true) : s.isFlat = true := by
  cases s with
  | type _ | className _ | pseudoClass _ => rfl
  | _ => cases h

theorem components_of_isFlat {s : Simple} (h : s.isFlat = true) : s.components = s.tokens.map ofToken := by
  cases s with
  | universal | type _ | id _ | className _ | pseudoClass _ => rfl
  | _ => cases h

theorem whole_ofToken {t : Token} (hopen : t.opens? = none) (hclose : t.closes? = none) (b? : Option Bracket) :
    Whole b? (ofToken t) := by
  rw [ofToken, Whole]
  refine ⟨hopen, fun b hb => ?_⟩
  rw [Token.lexeme, hclose] at hb
  cases hb

theorem wholeAll_ofTokens {ts : List Token} {b? : Option Bracket} (h : ∀ t ∈ ts, Flat t) :
    WholeAll b? (ts.map ofToken) := by
  rw [wholeAll_iff]
  intro c hc
  obtain ⟨t, ht, rfl⟩ := List.mem_map.1 hc
  exact whole_ofToken (h t ht).opens? (h t ht).closes? b?

theorem whole_enclose {head : Token} {b : Bracket} (hopen : head.opens? = some b) {cs : List Component}
    (h : WholeAll (some b) cs) (b? : Option Bracket) : Whole b? (enclose head cs) := by
  rw [enclose, Whole]
  refine ⟨b, _, hopen, rfl, ?_, h⟩
  rw [closer, hopen]
  rfl

theorem wholeAll_cons_colon {b? : Option Bracket} {c : Component} (h : Whole b? c) :
    WholeAll b? [ofToken .colon, c] := ⟨whole_ofToken rfl rfl b?, h, trivial⟩

/-- All blocks of a simple selector are closed. -/
theorem wholeAll_components {s : Simple} (h : s.Legible) (b? : Option Bracket) : WholeAll b? s.components := by
  induction s generalizing b? with
  | universal | type _ | id _ | className _ | pseudoClass _ =>
    exact wholeAll_ofTokens fun t ht => flat_of_mem_tokens rfl ht
  | function name arguments =>
    have hclosed := h.closed
    unfold staysClosed at hclosed
    split at hclosed
    · next head inside close heq =>
      have hlast : ofLexemes (Lexeme.ofChars (functionText name arguments)) =
        [] ++ [.block head inside (some close)] := heq
      have hwhole := wholeAll_of_closed hlast
      rw [hlast, List.nil_append, WholeAll, Whole] at hwhole
      rw [components, heq]
      refine wholeAll_cons_colon ?_
      rw [Whole]
      exact hwhole.1
    · cases hclosed
  | negation inner ih => exact wholeAll_cons_colon (whole_enclose rfl (ih h _) b?)
  | attr a =>
    exact ⟨whole_enclose rfl (wholeAll_ofTokens fun t ht => flat_of_mem_body ht) b?, trivial⟩
  | nothing =>
    have hstar : WholeAll (some .round) (Simple.universal.tokens.map ofToken) :=
      wholeAll_ofTokens fun t ht => flat_of_mem_tokens rfl ht
    exact wholeAll_cons_colon (whole_enclose rfl hstar b?)

/-! ## Both ends -/

/-- The last token of a simple selector, which is a name if its text ends in one. -/
theorem tokens_getLast (s : Simple) : ∃ ts t, s.tokens = ts ++ [t] ∧ t.EndsPart ∧
    (t.isNamed = false → ∀ rest : List Char, rest.head? ≠ some '=' → s.Follow rest) := by
  cases s with
  | universal => exact ⟨[], .delim '*', rfl, rfl, fun _ _ h => h⟩
  | type t => exact ⟨_, .ident t.name, rfl, trivial, nofun⟩
  | id name => exact ⟨[], .idHash name, rfl, trivial, nofun⟩
  | className name => exact ⟨[.delim '.'], .ident name, rfl, trivial, nofun⟩
  | pseudoClass name => exact ⟨[.colon], .ident name, rfl, trivial, nofun⟩
  | function name arguments => exact ⟨_, .closing .round, rfl, trivial, fun _ _ _ => trivial⟩
  | negation inner => exact ⟨_, .closing .round, rfl, trivial, fun _ _ _ => trivial⟩
  | attr a => exact ⟨_, .closing .square, rfl, trivial, fun _ _ _ => trivial⟩
  | nothing => exact ⟨[.colon, .function "not", .delim '*'], .closing .round, rfl, trivial, fun _ _ _ => trivial⟩

/-- The first token of a simple selector. -/
theorem tokens_head (s : Simple) : ∃ t ts, s.tokens = t :: ts ∧ t.StartsPart := by
  cases s with
  | universal => exact ⟨.delim '*', [], rfl, .inl rfl⟩
  | type t =>
    obtain ⟨ns, name⟩ := t
    cases ns with
    | any => exact ⟨.ident name, [], rfl, trivial⟩
    | absent => exact ⟨.delim '|', _, rfl, .inr (.inl rfl)⟩
    | named label => exact ⟨.ident label, _, rfl, trivial⟩
  | id name => exact ⟨.idHash name, [], rfl, trivial⟩
  | className name => exact ⟨.delim '.', _, rfl, .inr (.inr rfl)⟩
  | attr a => exact ⟨.opening .square, _, rfl, rfl⟩
  | pseudoClass _ | function _ _ | negation _ | nothing => exact ⟨.colon, _, rfl, trivial⟩

theorem tokens_ne_nil (s : Simple) : s.tokens ≠ [] := by
  obtain ⟨t, ts, htokens, -⟩ := s.tokens_head
  rw [htokens]
  exact List.cons_ne_nil t ts

/-- The text of a part starts with no name, unless its first token is one. -/
theorem text_startsPart {t : Token} (h : t.StartsPart) (hident : t.isIdent = false) :
    ∃ c cs, t.text = c :: cs ∧ ∀ rest, Halts (c :: rest) := by
  cases t with
  | ident name => cases hident
  | idHash name => exact ⟨'#', _, rfl, halts_cons (by decide) (by decide)⟩
  | colon => exact ⟨':', _, rfl, halts_cons (by decide) (by decide)⟩
  | delim c =>
    rcases h with rfl | rfl | rfl
    · exact ⟨'*', _, rfl, halts_cons (by decide) (by decide)⟩
    · exact ⟨'|', _, rfl, halts_cons (by decide) (by decide)⟩
    · exact ⟨'.', _, rfl, halts_cons (by decide) (by decide)⟩
  | opening b =>
    cases h
    exact ⟨'[', _, rfl, halts_cons (by decide) (by decide)⟩
  | _ => cases h

theorem serialize_eq_text_append (t : Token) (ts : List Token) :
    ∃ more, serialize (t :: ts) = t.text ++ more := by
  cases ts with
  | nil => exact ⟨[], by rw [serialize, List.append_nil]⟩
  | cons u us => exact ⟨_, by rw [serialize, List.append_assoc]⟩

theorem leads_cons {c : Char} (hspace : isSpace c = false) (hc : c ≠ '=' ∧ c ≠ '.' ∧ c.isDigit = false)
    (rest : List Char) : Leads (c :: rest) where
  not_space := hspace
  ne_equals := fun h => hc.1 (Option.some.inj h)
  not_number := by rw [startsUnsigned_of_ne hc.2.1, hc.2.2]

theorem leads_serialize {t : Token} {c : Char} {cs : List Char} (htext : t.text = c :: cs)
    (h : ∀ more, Leads (c :: more)) (ts : List Token) (rest : List Char) : Leads (serialize (t :: ts) ++ rest) := by
  obtain ⟨more, hmore⟩ := serialize_eq_text_append t ts
  rw [hmore, htext]
  exact h _

theorem leads_ident {name : String} (h : IsName name) (ts : List Token) (rest : List Char) :
    Leads (serialize (.ident name :: ts) ++ rest) := by
  obtain ⟨c, cs, htext, hc⟩ := h.text_cons
  exact leads_serialize htext hc.leads ts rest

/-- The text of a simple selector starts with nothing that a combinator before it would take in. -/
theorem leads {s : Simple} (h : s.Legible) (rest : List Char) : Leads (serialize s.tokens ++ rest) := by
  cases s with
  | universal => exact leads_cons (by decide) (by decide) _
  | type t =>
    obtain ⟨ns, name⟩ := t
    cases ns with
    | any => exact leads_ident h.2 [] rest
    | absent => exact leads_cons (by decide) (by decide) _
    | named label => exact leads_ident h.1 _ rest
  | className name =>
    -- after the point comes a name, which no digit starts
    obtain ⟨c, cs, htext, hc⟩ := h.text_cons
    rw [tokens, serialize_cons (fun next hnext => by cases hnext; rfl), serialize, htext]
    exact ⟨rfl, fun h => absurd (Option.some.inj h) (by decide), hc.not_isDigit⟩
  | id _ => exact leads_serialize rfl (leads_cons (by decide) (by decide)) _ rest
  | attr a => exact leads_serialize rfl (leads_cons (by decide) (by decide)) _ rest
  | pseudoClass _ | function _ _ | negation _ | nothing =>
    exact leads_serialize rfl (leads_cons (by decide) (by decide)) _ rest

/-- A simple selector ends before the next one on the same element, with what keeps them apart. -/
theorem follow_between (s next : Simple) {ts : List Token} (hhead : ts.head? = next.tokens.head?)
    {rest : List Char} (hleads : Leads (serialize ts ++ rest)) :
    s.Follow (serialize (between s.tokens ts) ++ (serialize ts ++ rest)) := by
  obtain ⟨front, t, hlast, ht, hfollow⟩ := s.tokens_getLast
  obtain ⟨u, us, htokens, hu⟩ := next.tokens_head
  rw [htokens] at hhead
  obtain ⟨us, rfl⟩ : ∃ us, ts = u :: us := by
    cases ts with
    | nil => cases hhead
    | cons v vs =>
      cases hhead
      exact ⟨vs, rfl⟩
  have hbetween : between s.tokens (u :: us) = if t.runsInto u then [.comment ""] else [] := by
    rw [between, hlast, List.getLast?_concat]
    rfl
  by_cases hruns : t.runsInto u = true
  · rw [hbetween, if_pos hruns]
    exact Halts.follow (halts_cons (by decide) (by decide) _) s
  · -- nothing keeps them apart, so a name here is followed by what is no name
    rw [hbetween, if_neg hruns]
    rw [runsInto_of_parts ht hu, Bool.and_eq_true, not_and, Bool.not_eq_true] at hruns
    cases hnamed : t.isNamed with
    | false => exact hfollow hnamed _ hleads.ne_equals
    | true =>
      obtain ⟨c, cs, htext, hhalts⟩ := text_startsPart hu (hruns hnamed)
      obtain ⟨more, hmore⟩ := serialize_eq_text_append u us
      rw [hmore, htext]
      exact (hhalts _).follow s

end Simple

end StyleSelectors
