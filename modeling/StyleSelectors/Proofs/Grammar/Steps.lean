/-
Single steps of reading. What a cursor sees is all that its steps depend on: `next`, `skipSpace` and
`token?` by the nodes ahead, one equation of `Cursor.item?` for each token that a part starts with,
and one for each way that reading the parts of a compound (`Cursor.simples`) or a complex selector
(`Cursor.complex`) goes on.
-/
import StyleSelectors.Grammar.Complex

namespace StyleSelectors.Cursor

variable {P : Type} {c d e : Cursor P} {n : Node P} {rest : List (Node P)} {ns : Namespace} {name : String}
  {k : Compound P} {link : Combinator}

/-! ## Moves -/

theorem rest_next (h : c.rest = n :: rest) : c.next.rest = rest := by
  rw [next, h]

theorem token?_cons (h : c.rest = n :: rest) : c.token? = some n.token := by
  rw [token?, h]
  rfl

theorem token?_nil (h : c.rest = []) : c.token? = none := by
  rw [token?, h]
  rfl

theorem rest_skipSpace_eq (c : Cursor P) : c.skipSpace.rest = c.rest.dropWhile fun n => n.token.isWhitespace := rfl

theorem rest_skipSpace_nil (h : c.rest = []) : c.skipSpace.rest = [] := by
  rw [rest_skipSpace_eq, h, List.dropWhile_nil]

theorem rest_skipSpace (h : c.rest = n :: rest) (hn : n.token.isWhitespace = false) :
    c.skipSpace.rest = n :: rest := by
  rw [rest_skipSpace_eq, h, List.dropWhile_cons_of_neg (by simp [hn])]

/-- A blank ahead is gone. -/
theorem rest_skipSpace_cons (h : c.rest = n :: rest) (hn : n.token.isWhitespace = true)
    (hrest : ∀ m ∈ rest.head?, m.token.isWhitespace = false) : c.skipSpace.rest = rest := by
  rw [rest_skipSpace_eq, h, List.dropWhile_cons_of_pos (by simp [hn])]
  cases rest with
  | nil => rfl
  | cons m rest => rw [List.dropWhile_cons_of_neg (by simp [hrest m rfl])]

theorem atBar_cons (h : c.rest = n :: rest) : c.atBar = (n.token == .delim '|') := by
  rw [atBar, token?_cons h]
  rfl

theorem atBar_eq_false (h : ∀ n ∈ c.rest.head?, n.token ≠ .delim '|') : c.atBar = false := by
  rw [atBar, token?]
  cases hrest : c.rest.head? with
  | none => rfl
  | some n => simpa using h n hrest

/-! ## One part -/

theorem item?_ident (hc : c.rest = n :: rest) (hn : n.token = .ident name) :
    c.item? ns = (c.next.typeAfter (.named name) (.type ⟨ns, name⟩)).map some := by
  simp only [item?, hc, hn]

theorem item?_star (hc : c.rest = n :: rest) (hn : n.token = .delim '*') :
    c.item? ns = (c.next.typeAfter .any .universal).map some := by
  simp only [item?, hc, hn]

theorem item?_bar (hc : c.rest = n :: rest) (hn : n.token = .delim '|') :
    c.item? ns = (c.next.qualified .absent).map some := by
  simp only [item?, hc, hn]

theorem item?_idHash (hc : c.rest = n :: rest) (hn : n.token = .idHash name) :
    c.item? ns = .ok (some (.simple (.id name), c.next)) := by
  simp only [item?, hc, hn]

theorem item?_point (hc : c.rest = n :: rest) (hn : n.token = .delim '.') :
    c.item? ns = c.next.localName.map fun (name, d) => some (.simple (.className name), d) := by
  simp only [item?, hc, hn]

theorem item?_square (hc : c.rest = n :: rest) (hn : n.token = .opening .square) :
    c.item? ns = (inside n).attributeSelector.map fun (a, flagged) =>
      some (if flagged then .unsupported (.attributeFlags a.name) else .simple (.attr a), c.next) := by
  simp only [item?, hc, hn]

theorem item?_colon (hc : c.rest = n :: rest) (hn : n.token = .colon) :
    c.item? ns = c.next.pseudo.map some := by
  simp only [item?, hc, hn]

theorem item?_nil (hc : c.rest = []) : c.item? ns = .ok none := by
  simp only [item?, hc]

/-- Whether no part starts at the front of some nodes. -/
def Stops (rest : List (Node P)) : Prop :=
  ∀ n ∈ rest.head?, n.token.isWhitespace = true ∨ n.token = .delim '>' ∨ n.token = .delim '+' ∨ n.token = .delim '~'

theorem item?_of_stops (h : Stops c.rest) : c.item? ns = .ok none := by
  cases hc : c.rest with
  | nil => exact item?_nil hc
  | cons n rest =>
    rw [hc] at h
    rcases h n rfl with hn | hn | hn | hn
    · cases htoken : n.token with
      | whitespace _ => simp only [item?, hc, htoken]
      | _ => rw [htoken] at hn; cases hn
    · simp only [item?, hc, hn]
      rfl
    · simp only [item?, hc, hn]
      rfl
    · simp only [item?, hc, hn]
      rfl

theorem qualified_ident (hc : c.rest = n :: rest) (hn : n.token = .ident name) :
    c.qualified ns = .ok (.simple (.type ⟨ns, name⟩), c.next) := by
  simp only [qualified, token?_cons hc, hn]

theorem typeAfter_bar {written : Simple} (hc : c.rest = n :: rest) (hn : n.token = .delim '|') :
    c.typeAfter ns written = c.next.qualified ns := by
  rw [typeAfter, atBar_cons hc, hn]
  rfl

theorem typeAfter_of_ne {written : Simple} (h : ∀ n ∈ c.rest.head?, n.token ≠ .delim '|') :
    c.typeAfter ns written = .ok (.simple written, c) := by
  rw [typeAfter, atBar_eq_false h]
  rfl

theorem localName_ident (hc : c.rest = n :: rest) (hn : n.token = .ident name) :
    c.localName = .ok (name, c.next) := by
  simp only [localName, token?_cons hc, hn]

/-! ## Compounds -/

theorem simples_error {e : Failure P} (h : c.item? ns = .error e) : c.simples ns = .fail e := by
  rw [simples]
  split
  · next heq => cases heq.symm.trans h; rfl
  all_goals next heq => cases heq.symm.trans h

theorem simples_none (h : c.item? ns = .ok none) : c.simples ns = .ok ([], c) := by
  rw [simples]
  split
  · next heq => cases heq.symm.trans h
  · rfl
  all_goals next heq => cases heq.symm.trans h

theorem simples_simple {s : Simple} (h : c.item? ns = .ok (some (.simple s, d))) :
    c.simples ns = (d.simples ns).map fun (rest, e) => (s :: rest, e) := by
  rw [simples]
  split
  · next heq => cases heq.symm.trans h
  · next heq => cases heq.symm.trans h
  · next heq => cases heq.symm.trans h; rfl
  all_goals next heq => cases heq.symm.trans h

theorem simples_unsupported {why : Unsupported P} (h : c.item? ns = .ok (some (.unsupported why, d))) :
    c.simples ns = .remark why ((d.simples ns).map fun (rest, e) => (.nothing :: rest, e)) := by
  rw [simples]
  split
  · next heq => cases heq.symm.trans h
  · next heq => cases heq.symm.trans h
  · next heq => cases heq.symm.trans h
  · next heq => cases heq.symm.trans h; rfl
  · next heq => cases heq.symm.trans h

theorem simples_negation {inside : Cursor P} (h : c.item? ns = .ok (some (.negation inside, d))) :
    c.simples ns =
      (((inside.simples ns).bind inside.compoundOf).bind negationOf).bind fun s =>
        (d.simples ns).map fun (rest, e) => (s :: rest, e) := by
  rw [simples]
  split
  · next heq => cases heq.symm.trans h
  · next heq => cases heq.symm.trans h
  · next heq => cases heq.symm.trans h
  · next heq => cases heq.symm.trans h
  · next heq => cases heq.symm.trans h; rfl

theorem compound_of_simples {s : Simple} {ss : List Simple} (h : c.simples ns = .ok (s :: ss, d)) :
    (c.compound ns).result = .ok (⟨c.here, s, ss⟩, d) := by
  rw [compound, h]
  rfl

/-- A part that no other comes after is a compound by itself. -/
theorem compound_single {s : Simple} (h : c.item? ns = .ok (some (.simple s, d))) (hd : d.item? ns = .ok none) :
    (c.compound ns).result = .ok (⟨c.here, s, []⟩, d) := by
  apply compound_of_simples
  rw [simples_simple h, simples_none hd]
  rfl

/-! ## Complex selectors -/

theorem combinator?_nil (h : c.rest = []) : c.combinator? = .ok none := by
  simp only [combinator?, token?_nil (rest_skipSpace_nil h)]

/-- Reading a complex selector is reading a compound, and then what its combinator asks for. -/
theorem complex_eq_bind (ns : Namespace) (c : Cursor P) :
    c.complex ns = (c.compound ns).bind fun (k, d) =>
      match d.combinator? with
      | .error e => .fail e
      | .ok none => .ok (.subject k)
      | .ok (some (link, e)) =>
        if e.skipSpace.rest.isEmpty then .fail ⟨.danglingCombinator, e.skipSpace.here⟩
        else (complex ns e.skipSpace).map (.link k link ·) := by
  rw [complex]
  split
  · next heq => rw [Report.bind_of_error heq]
  · next k d heq =>
    rw [Report.bind_of_ok heq]
    split
    · next hd => simp only [hd, Report.fail, List.append_nil]
    · next hd => simp only [hd, Report.ok, List.append_nil]
    · next link e hd =>
      simp only [hd]
      split
      · simp only [Report.fail, List.append_nil]
      · rfl

theorem complex_subject (h : (c.compound ns).result = .ok (k, d)) (hd : d.combinator? = .ok none) :
    (c.complex ns).result = .ok (.subject k) := by
  rw [complex_eq_bind, Report.bind_ok h]
  simp only [hd]
  rfl

theorem complex_link (h : (c.compound ns).result = .ok (k, d)) (hd : d.combinator? = .ok (some (link, e)))
    (he : e.skipSpace.rest ≠ []) :
    (c.complex ns).result = (e.skipSpace.complex ns).result.map (.link k link ·) := by
  rw [complex_eq_bind, Report.bind_ok h]
  simp only [hd]
  rw [if_neg (by simpa using he)]
  rfl

theorem complex_error {f : Failure P} (h : (c.compound ns).result = .error f) :
    (c.complex ns).result = .error f := by
  rw [complex_eq_bind, Report.bind_of_error h]

theorem complex_combinator_error {f : Failure P} (h : (c.compound ns).result = .ok (k, d))
    (hd : d.combinator? = .error f) : (c.complex ns).result = .error f := by
  rw [complex_eq_bind, Report.bind_ok h]
  simp only [hd]
  rfl

theorem complex_dangling (h : (c.compound ns).result = .ok (k, d)) (hd : d.combinator? = .ok (some (link, e)))
    (he : e.skipSpace.rest.isEmpty = true) :
    (c.complex ns).result = .error ⟨.danglingCombinator, e.skipSpace.here⟩ := by
  rw [complex_eq_bind, Report.bind_ok h]
  simp only [hd]
  rw [if_pos he]
  rfl

end StyleSelectors.Cursor
