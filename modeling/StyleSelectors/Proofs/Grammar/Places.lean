/-
Places are carried along and never looked at. Moving all places of a cursor, by any function, moves
those of whatever is read from it and changes nothing else (`Cursor.complex_map`). So two cursors
whose nodes differ in their places alone read as the same selector but for its locators, or fail for
the same cause (`Cursor.outcome_eq_of_map`).
-/
import StyleSelectors.Proofs.Grammar.Sound

namespace StyleSelectors

variable {P Q α β γ δ : Type} (f : P → Q)

/-! ## Moving places -/

namespace Node

mutual

/-- A node with its places moved. -/
def map : Node P → Node Q
  | .leaf token start after => .leaf token (f start) (f after)
  | .block token start after inside stop finish written =>
    .block token (f start) (f after) (mapAll inside) (f stop) (f finish) written

def mapAll : List (Node P) → List (Node Q)
  | [] => []
  | n :: rest => map n :: mapAll rest

end

theorem mapAll_eq (ns : List (Node P)) : mapAll f ns = ns.map (map f) := by
  induction ns with
  | nil => rfl
  | cons n ns ih => rw [mapAll, ih, List.map_cons]

@[simp] theorem token_map (n : Node P) : (n.map f).token = n.token := by cases n <;> rfl

@[simp] theorem start_map (n : Node P) : (n.map f).start = f n.start := by cases n <;> rfl

@[simp] theorem after_map (n : Node P) : (n.map f).after = f n.after := by cases n <;> rfl

@[simp] theorem finish_map (n : Node P) : (n.map f).finish = f n.finish := by cases n <;> rfl

@[simp] theorem arguments_map (n : Node P) : Cursor.arguments (n.map f) = Cursor.arguments n := by cases n <;> rfl

end Node

def Failure.map (e : Failure P) : Failure Q := ⟨e.cause, f e.place⟩

def Unsupported.map : Unsupported P → Unsupported Q
  | .universalIn ns => .universalIn ns
  | .attributeFlags name => .attributeFlags name
  | .legacyPseudoElement name => .legacyPseudoElement name
  | .pseudoElement name => .pseudoElement name
  | .pseudoElementFunction name => .pseudoElementFunction name
  | .compoundNegation place => .compoundNegation (f place)
  | .unsupportedNegation place => .unsupportedNegation (f place)
  | .compoundBefore link place => .compoundBefore link (f place)

def Cursor.map (c : Cursor P) : Cursor Q := ⟨f c.here, c.rest.map (Node.map f), f c.stop⟩

def Item.map : Item P → Item Q
  | .simple s => .simple s
  | .unsupported why => .unsupported (why.map f)
  | .negation inside => .negation (inside.map f)

def Compound.map (k : Compound P) : Compound Q := ⟨f k.place, k.first, k.others⟩

def Complex.map : Complex P → Complex Q
  | .subject k => .subject (k.map f)
  | .link k combinator rest => .link (k.map f) combinator (rest.map)

/-- A result with its places moved, those of the value by `g`. -/
def moved (g : α → β) : Except (Failure P) α → Except (Failure Q) β
  | .error e => .error (e.map f)
  | .ok a => .ok (g a)

section Moved

variable {f} {g : α → β} {g' : γ → δ} {x : Except (Failure P) α}

theorem map_moved {h : β → δ} {h' : α → γ} (hcomm : ∀ a, h (g a) = g' (h' a)) :
    (moved f g x).map h = moved f g' (x.map h') := by
  cases x with
  | error e => rfl
  | ok a => exact congrArg Except.ok (hcomm a)

theorem bind_moved {k : β → Except (Failure Q) δ} {k' : α → Except (Failure P) γ}
    (hcomm : ∀ a, k (g a) = moved f g' (k' a)) : (moved f g x >>= k) = moved f g' (x >>= k') := by
  cases x with
  | error e => rfl
  | ok a => exact hcomm a

end Moved

namespace Cursor

variable (c : Cursor P) (ns : Namespace)

/-! ## Moves -/

theorem next_map : (c.map f).next = c.next.map f := by
  obtain ⟨here, rest, stop⟩ := c
  cases rest with
  | nil => rfl
  | cons n rest => simp [map, next]

theorem skipSpace_map : (c.map f).skipSpace = c.skipSpace.map f := by
  have hahead : (c.map f).rest.dropWhile (fun n => n.token.isWhitespace) =
      (c.rest.dropWhile fun n => n.token.isWhitespace).map (Node.map f) := by
    simp [map, List.dropWhile_map, Function.comp_def]
  simp only [skipSpace, hahead]
  cases c.rest.dropWhile fun n => n.token.isWhitespace <;> simp [map]

theorem token?_map : (c.map f).token? = c.token? := by
  simp [token?, map, Function.comp_def]

theorem unexpected_map : (c.map f).unexpected = c.unexpected.map f := by
  simp only [unexpected, token?_map]
  cases c.token? <;> rfl

theorem unexpectedPast_map : (c.map f).unexpectedPast = c.unexpectedPast.map f := by
  obtain ⟨here, rest, stop⟩ := c
  cases rest <;> simp [map, unexpectedPast, Failure.map]

theorem inside_map (n : Node P) : inside (n.map f) = (inside n).map f := by
  cases n with
  | leaf => rfl
  | block => simp [Node.map, inside, map, Node.mapAll_eq]

theorem atBar_map : (c.map f).atBar = c.atBar := by simp only [atBar, token?_map]

/-! ## Attributes -/

theorem localName_map : (c.map f).localName = moved f (Prod.map id (map f)) c.localName := by
  simp only [localName, token?_map, next_map]
  split <;> rfl

theorem attributeName_map : (c.map f).attributeName = moved f (Prod.map id (map f)) c.attributeName := by
  simp only [attributeName, token?_map, next_map, atBar_map, localName_map, unexpected_map]
  split
  · split
    · exact map_moved fun _ => rfl
    · rfl
  · split
    · exact map_moved fun _ => rfl
    · rfl
  · exact map_moved fun _ => rfl
  · rfl

theorem operand_map : (c.map f).operand = moved f (Prod.map id (map f)) c.operand := by
  simp only [operand, skipSpace_map, token?_map, next_map]
  split <;> rfl

theorem flags_map : (c.map f).flags = (c.flags.1, c.flags.2.map f) := by
  simp only [flags, skipSpace_map, token?_map, next_map]
  split <;> rfl

theorem expectEnd_map : (c.map f).expectEnd = moved f id c.expectEnd := by
  simp only [expectEnd, skipSpace_map, token?_map]
  split <;> rfl

theorem attributeSelector_map : (c.map f).attributeSelector = moved f id c.attributeSelector := by
  simp only [attributeSelector, skipSpace_map, attributeName_map]
  refine bind_moved fun ⟨⟨ns, name⟩, d⟩ => ?_
  simp only [Prod.map, id_eq, skipSpace_map, token?_map]
  split
  · rfl
  · split
    · rfl
    · simp only [next_map, operand_map]
      refine bind_moved fun ⟨value, e⟩ => ?_
      simp only [Prod.map, id_eq, flags_map, expectEnd_map]
      exact bind_moved fun _ => rfl

/-! ## Parts -/

theorem qualified_map : (c.map f).qualified ns = moved f (Prod.map (Item.map f) (map f)) (c.qualified ns) := by
  simp only [qualified, token?_map, next_map, unexpected_map]
  split
  · rfl
  · by_cases hns : ns = .any
    · rw [if_pos hns, if_pos hns]
      rfl
    · rw [if_neg hns, if_neg hns]
      rfl
  · rfl

theorem typeAfter_map (written : Simple) :
    (c.map f).typeAfter ns written = moved f (Prod.map (Item.map f) (map f)) (c.typeAfter ns written) := by
  simp only [typeAfter, atBar_map, next_map]
  split
  · exact qualified_map f c.next ns
  · rfl

theorem pseudoElement_map : (c.map f).pseudoElement = moved f (Prod.map (Item.map f) (map f)) c.pseudoElement := by
  simp only [pseudoElement, token?_map, next_map, unexpected_map]
  split <;> rfl

theorem pseudo_map : (c.map f).pseudo = moved f (Prod.map (Item.map f) (map f)) c.pseudo := by
  cases hc : c.rest with
  | nil =>
    have hmap : (c.map f).rest = [] := by rw [map, hc, List.map_nil]
    simp only [pseudo, hc, hmap, unexpected_map]
    rfl
  | cons n rest =>
    have hmap : (c.map f).rest = n.map f :: rest.map (Node.map f) := by rw [map, hc, List.map_cons]
    simp only [pseudo, hc, hmap, Node.token_map, next_map, Node.arguments_map, inside_map, skipSpace_map,
      unexpected_map]
    split
    · split <;> rfl
    · split <;> rfl
    · exact pseudoElement_map f c.next
    · rfl

theorem item?_map :
    (c.map f).item? ns = moved f (Option.map (Prod.map (Item.map f) (map f))) (c.item? ns) := by
  cases hc : c.rest with
  | nil =>
    have hmap : (c.map f).rest = [] := by rw [map, hc, List.map_nil]
    simp only [item?, hc, hmap]
    rfl
  | cons n rest =>
    have hmap : (c.map f).rest = n.map f :: rest.map (Node.map f) := by rw [map, hc, List.map_cons]
    simp only [item?, hc, hmap, Node.token_map, next_map, inside_map, typeAfter_map, qualified_map, localName_map,
      attributeSelector_map, pseudo_map]
    split
    · exact map_moved fun _ => rfl
    · exact map_moved fun _ => rfl
    · exact map_moved fun _ => rfl
    · rfl
    · exact map_moved fun _ => rfl
    · refine map_moved fun x => ?_
      obtain ⟨a, flagged⟩ := x
      cases flagged <;> rfl
    · exact map_moved fun _ => rfl
    · rfl

end Cursor

/-! ## Compounds -/

theorem Report.bind_moved {f : P → Q} {r : Report P α} {r' : Report Q β} {g : α → β} {k : α → Report P γ}
    {k' : β → Report Q δ} {g' : γ → δ} (hr : r'.result = moved f g r.result)
    (hk : ∀ a, (k' (g a)).result = moved f g' (k a).result) :
    (r'.bind k').result = moved f g' (r.bind k).result := by
  unfold bind
  rw [hr]
  cases r.result with
  | error e => rfl
  | ok a => exact hk a

theorem Report.map_moved {f : P → Q} {r : Report P α} {r' : Report Q β} {g : α → β} {h : β → δ} {h' : α → γ}
    {g' : γ → δ} (hr : r'.result = moved f g r.result) (hcomm : ∀ a, h (g a) = g' (h' a)) :
    (r'.map h).result = moved f g' (r.map h').result := by
  rw [map, map, hr]
  exact StyleSelectors.map_moved hcomm

namespace Cursor

variable (c : Cursor P) (ns : Namespace)

theorem compoundOf_map (ss : List Simple) (d : Cursor P) :
    ((c.map f).compoundOf (ss, d.map f)).result =
      moved f (Prod.map (Compound.map f) (map f)) (c.compoundOf (ss, d)).result := by
  cases ss with
  | cons s rest => rfl
  | nil =>
    have hempty : (d.map f).rest.isEmpty = d.rest.isEmpty := List.isEmpty_map
    simp only [compoundOf, hempty, unexpectedPast_map]
    split <;> rfl

theorem negationOf_map (k : Compound P) (d : Cursor P) :
    (negationOf (k.map f, d.map f)).result = moved f id (negationOf (k, d)).result := by
  obtain ⟨place, first, others⟩ := k
  show (negationOf (⟨f place, first, others⟩, d.map f)).result = _
  simp only [negationOf, skipSpace_map, expectEnd_map]
  cases d.skipSpace.expectEnd with
  | error e => rfl
  | ok _ =>
    cases others with
    | cons t ts => rfl
    | nil =>
      by_cases hfirst : first = .nothing
      · subst hfirst
        rfl
      · simp only [moved, List.isEmpty_nil, Bool.not_true, Bool.false_eq_true, if_false, if_neg hfirst]
        rfl

theorem simples_map :
    ((c.map f).simples ns).result = moved f (Prod.map id (map f)) (c.simples ns).result := by
  fun_induction simples ns c with
  | case1 c e h =>
    rw [simples_error (e := e.map f) (by rw [item?_map, h]; rfl)]
    rfl
  | case2 c h =>
    rw [simples_none (by rw [item?_map, h]; rfl)]
    rfl
  | case3 c s d h _ ih =>
    rw [simples_simple (s := s) (d := d.map f) (by rw [item?_map, h]; rfl)]
    exact Report.map_moved ih fun _ => rfl
  | case4 c why d h _ ih =>
    have hmap : (c.map f).item? ns = .ok (some (.unsupported (why.map f), d.map f)) := by rw [item?_map, h]; rfl
    rw [simples_unsupported hmap]
    exact Report.map_moved ih fun _ => rfl
  | case5 c inside d h _ _ ihInside ih =>
    have hmap : (c.map f).item? ns = .ok (some (.negation (inside.map f), d.map f)) := by rw [item?_map, h]; rfl
    rw [simples_negation hmap]
    have hargument := Report.bind_moved ihInside fun a => compoundOf_map f inside a.1 a.2
    have hnegation := Report.bind_moved hargument fun a => negationOf_map f a.1 a.2
    exact Report.bind_moved hnegation fun s => Report.map_moved ih fun _ => rfl

theorem compound_map :
    ((c.map f).compound ns).result = moved f (Prod.map (Compound.map f) (map f)) (c.compound ns).result :=
  Report.bind_moved (simples_map f c ns) fun a => compoundOf_map f c a.1 a.2

/-! ## Complex selectors -/

theorem combinator?_map :
    (c.map f).combinator? = moved f (Option.map (Prod.map id (map f))) c.combinator? := by
  simp only [combinator?, skipSpace_map, token?_map, next_map, unexpectedPast_map]
  split
  · rfl
  · split
    · rfl
    · split <;> rfl

theorem complex_map : ((c.map f).complex ns).result = moved f (Complex.map f) (c.complex ns).result := by
  fun_induction complex ns c with
  | case1 c e h =>
    have hmap : ((c.map f).compound ns).result = .error (e.map f) := by rw [compound_map, h]; rfl
    rw [complex_error hmap]
    rfl
  | case2 c k d h e hd =>
    have hmap : ((c.map f).compound ns).result = .ok (k.map f, d.map f) := by rw [compound_map, h]; rfl
    rw [complex_combinator_error hmap (by rw [combinator?_map, hd]; rfl)]
    rfl
  | case3 c k d h hd =>
    have hmap : ((c.map f).compound ns).result = .ok (k.map f, d.map f) := by rw [compound_map, h]; rfl
    rw [complex_subject hmap (by rw [combinator?_map, hd]; rfl)]
    rfl
  | case4 c k d h link e hd hend =>
    have hmap : ((c.map f).compound ns).result = .ok (k.map f, d.map f) := by rw [compound_map, h]; rfl
    have hlink : (d.map f).combinator? = .ok (some (link, e.map f)) := by rw [combinator?_map, hd]; rfl
    rw [complex_dangling hmap hlink (by rwa [skipSpace_map, map, List.isEmpty_map]), skipSpace_map]
    rfl
  | case5 c k d h link e hd hne =>
    rename_i ih
    have hmap : ((c.map f).compound ns).result = .ok (k.map f, d.map f) := by rw [compound_map, h]; rfl
    have hlink : (d.map f).combinator? = .ok (some (link, e.map f)) := by rw [combinator?_map, hd]; rfl
    rw [complex_link hmap hlink (by rw [skipSpace_map, map]; simpa using hne), skipSpace_map, ih]
    exact StyleSelectors.map_moved fun _ => rfl

end Cursor

/-! ## Outcomes -/

namespace Complex

theorem simpleOnLeft_map (x : Complex P) : (x.map f).simpleOnLeft = x.simpleOnLeft := by
  induction x with
  | subject k => rfl
  | link k combinator rest ih => rw [map, simpleOnLeft, ih]; rfl

theorem erase_joined (locator : Locator) (s : Simple) (ss : List Simple) :
    (joined locator s ss).erase = .conjunction none s ss := by
  rw [← conjunction_eq_joined, Selector.erase_conjunction]

theorem erase_nested_map (locate : P → Locator) (locate' : Q → Locator) (x : Complex P) :
    ((x.map f).nested locate').erase = (x.nested locate).erase := by
  induction x with
  | subject k => exact (erase_joined _ k.first k.others).trans (erase_joined _ k.first k.others).symm
  | link k combinator rest ih => exact congrArg (Selector.related combinator k.first · none) ih

/-- What a complex selector denotes does not depend on its places but for the locators. -/
theorem erase_denoted_map (locate : P → Locator) (locate' : Q → Locator) (x : Complex P) :
    ((x.map f).denoted locate').erase = (x.denoted locate).erase := by
  rw [denoted, denoted, simpleOnLeft_map]
  split
  · exact erase_nested_map f locate locate' x
  · rfl

end Complex

namespace Cursor

/-- What comes of reading a selector, its locators and the place of a failure aside. -/
def outcome (locate : P → Locator) (ns : Namespace) (c : Cursor P) : Except Cause Selector :=
  ((c.selector locate ns).result.map Selector.erase).mapError Failure.cause

theorem outcome_map (locate : P → Locator) (locate' : Q → Locator) (ns : Namespace) (c : Cursor P) :
    (c.map f).outcome locate' ns = c.outcome locate ns := by
  unfold outcome selector
  rw [skipSpace_map, Report.bind, Report.bind, complex_map]
  cases hread : (c.skipSpace.complex ns).result with
  | error e => rfl
  | ok x =>
    simp only [moved, Complex.result_selector]
    exact congrArg Except.ok (Complex.erase_denoted_map f locate locate' x)

/-- Cursors whose nodes differ in their places alone have the same outcome. -/
theorem outcome_eq_of_map {c : Cursor P} {d : Cursor Q} {locate : P → Locator} {locate' : Q → Locator} {ns : Namespace}
    (h : c.rest.map (Node.map fun _ => ()) = d.rest.map (Node.map fun _ => ())) :
    c.outcome locate ns = d.outcome locate' ns := by
  have hmap : c.map (fun _ => ()) = d.map (fun _ => ()) := by rw [map, map, h]
  rw [← outcome_map (fun _ => ()) locate (fun _ => ⟨0, 0, 0, none⟩) ns c, hmap, outcome_map]

end Cursor

end StyleSelectors
