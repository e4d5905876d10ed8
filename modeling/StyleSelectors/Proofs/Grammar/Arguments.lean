/-
What becomes of the arguments of functions. A group that was read has the functions of its text, in
order, each with the text inside its brackets but for the blanks at the ends
(`Group.functions_sublist_of_parse`). This text has the tokens that stand between the brackets, without
the whitespace at the ends, exactly if the last of them is the same without the blanks after it:
`Group.functions_of_parse`.
-/
import StyleSelectors.Proofs.Component.Functions
import StyleSelectors.Proofs.Grammar.Tokens
import StyleSelectors.Proofs.Token.Trim

namespace StyleSelectors

open Text Token

/-! ## Functions of selectors -/

/-- The functions of a simple selector, each with its arguments. -/
def Simple.functions : Simple → List (String × String)
  | .function name arguments => [(name, arguments)]
  | .negation inner => inner.functions
  | _ => []

def Selector.functions (s : Selector) : List (String × String) := s.parts.flatMap Simple.functions

def Group.functions (g : Group) : List (String × String) := g.members.flatMap Selector.functions

/-! ## Functions of nodes -/

namespace Node

variable {P : Type}

/-- All functions of nodes, in the order of their names, each with what is inside. -/
def functionsOf : List (Node P) → List (String × List Component)
  | [] => []
  | .leaf token _ _ :: rest => token.functionName?.toList.map (·, []) ++ functionsOf rest
  | .block token _ _ inside _ _ written :: rest =>
    token.functionName?.toList.map (·, written) ++ functionsOf inside ++ functionsOf rest

theorem functionsOf_cons (n : Node P) (rest : List (Node P)) :
    functionsOf (n :: rest) =
      n.token.functionName?.toList.map (·, n.written) ++ functionsOf n.inside ++ functionsOf rest := by
  cases n with
  | leaf token start after =>
    rw [functionsOf, show inside (.leaf token start after) = [] from rfl, functionsOf, List.append_nil]
    rfl
  | block token start after nodes stop finish written =>
    rw [functionsOf]
    rfl

theorem functionsOf_append (xs ys : List (Node P)) : functionsOf (xs ++ ys) = functionsOf xs ++ functionsOf ys := by
  induction xs with
  | nil => rw [functionsOf]; rfl
  | cons n xs ih =>
    rw [List.cons_append, functionsOf_cons, functionsOf_cons, ih, List.append_assoc _ _ (functionsOf ys)]

/-- A node's own function comes first. -/
theorem functionsOf_function {n : Node P} {name : String} (h : n.token = .function name) (rest : List (Node P)) :
    functionsOf (n :: rest) = (name, n.written) :: (functionsOf n.inside ++ functionsOf rest) := by
  rw [functionsOf_cons, h]
  rfl

/-- Nodes have the functions of the components that they were made of. -/
theorem functionsOf_ofComponents (p : Position) (cs : List Component) :
    functionsOf (ofComponents p cs).1 = Component.functionsOf cs := by
  fun_induction ofComponents p cs with
  | case1 => rw [functionsOf, Component.functionsOf]
  | case2 p x rest q more ih =>
    rw [Component.functionsOf, ← ih]
    split
    · next hcomment =>
      cases htoken : x.token with
      | comment text => rfl
      | _ => rw [htoken] at hcomment; cases hcomment
    · rw [functionsOf]
  | case3 p head inside close rest q within r more _ ihInside ih =>
    rw [Component.functionsOf, ← ihInside, ← ih, functionsOf]

end Node

/-! ## What is kept -/

/-- A function as it is kept. -/
def Component.kept (f : String × List Component) : String × String := (lower f.1, String.ofList (trim (chars f.2)))

namespace Grammar

variable {P : Type} {ns : Namespace} {locate : P → Locator} {xs : List (Node P)}

open Component (kept)

theorem functions_of_bare {t : Token} {s : Simple} (h : Bare ns t s) : s.functions = [] := by
  cases h <;> rfl

theorem functions_of_part {s : Simple} (h : Part xs s) : s.functions.Sublist ((Node.functionsOf xs).map kept) := by
  cases h with
  | @function c n name arguments hc hn hnot harguments =>
    have hkept : kept (name, n.written) = (name.toLower, arguments) := by
      rw [kept, ← trimmed_iff.1 harguments, String.ofList_toList, toLower_eq_lower]
    rw [Node.functionsOf_cons, Node.functionsOf_function hn, List.map_append, List.map_cons, Simple.functions, hkept]
    exact List.singleton_sublist.2 (List.mem_append_right _ (List.mem_cons_self ..))
  | attr => split <;> exact List.nil_sublist _
  | universal => split <;> exact List.nil_sublist _
  | pseudoClass => split <;> exact List.nil_sublist _
  | _ => exact List.nil_sublist _

theorem functions_negated (s : Simple) (ss : List Simple) :
    (negated (s :: ss)).functions.Sublist ((s :: ss).flatMap Simple.functions) := by
  unfold negated
  split
  · next heq =>
    cases heq
    split
    · exact List.nil_sublist _
    · rw [List.flatMap_singleton]
      exact List.Sublist.refl _
  · exact List.nil_sublist _

theorem functions_of_parts {ss : List Simple} (h : Parts ns xs ss) :
    (ss.flatMap Simple.functions).Sublist ((Node.functionsOf xs).map kept) := by
  induction h with
  | nil => exact List.nil_sublist _
  | bare hn _ _ ih =>
    rw [List.flatMap_cons, functions_of_bare hn, List.nil_append, Node.functionsOf_cons, List.map_append]
    exact ih.trans (List.sublist_append_right _ _)
  | part hxs _ ih =>
    rw [List.flatMap_cons, Node.functionsOf_append, List.map_append]
    exact (functions_of_part hxs).append ih
  | @negation c n name a xs b ys t ts ss _ _ _ hinside _ _ _ _ ihInside ih =>
    have hargument : (Node.functionsOf xs).Sublist (Node.functionsOf n.inside) := by
      rw [hinside, Node.functionsOf_append, Node.functionsOf_append]
      exact (List.sublist_append_right _ _).trans (List.sublist_append_left _ _)
    have hnegated := (functions_negated t ts).trans (ihInside.trans (hargument.map kept))
    rw [List.flatMap_cons, Node.functionsOf_cons, Node.functionsOf_cons]
    refine (hnegated.append ih).trans ?_
    rw [← List.map_append, List.append_assoc _ (Node.functionsOf n.inside)]
    exact ((List.sublist_append_right _ _).trans (List.sublist_append_right _ _)).map kept

theorem functions_of_chain {x : Complex P} (h : Chain ns xs x) :
    (x.simples.flatMap Simple.functions).Sublist ((Node.functionsOf xs).map kept) := by
  induction h with
  | subject hparts =>
    rw [Node.functionsOf_append, List.map_append]
    exact (functions_of_parts hparts).trans (List.sublist_append_left _ _)
  | link hparts _ _ ih =>
    rw [Complex.simples, List.flatMap_append, Node.functionsOf_append, Node.functionsOf_append, List.map_append,
      List.map_append]
    exact (functions_of_parts hparts).append (ih.trans (List.sublist_append_right _ _))

theorem functions_of_denotes {s : Selector} (h : Denotes ns locate xs s) :
    s.functions.Sublist ((Node.functionsOf xs).map kept) := by
  obtain ⟨a, ys, x, rfl, -, hys, rfl⟩ := h
  rw [Selector.functions, x.parts_denoted, Node.functionsOf_append, List.map_append]
  refine .trans ?_ (List.sublist_append_right _ _)
  split
  · exact functions_of_chain hys
  · exact List.nil_sublist _

theorem functions_of_members {ds : List (Cursor P)} {ss : List Selector}
    (h : List.Forall₂ (fun d s => Denotes ns locate (Cursor.rest d) s) ds ss) :
    (ss.flatMap Selector.functions).Sublist ((ds.flatMap fun d => Node.functionsOf d.rest).map kept) := by
  induction h with
  | nil => exact List.nil_sublist _
  | cons hs _ ih =>
    rw [List.flatMap_cons, List.flatMap_cons, List.map_append]
    exact (functions_of_denotes hs).append ih

end Grammar

/-! ## Functions of groups -/

namespace Cursor

variable {P : Type}

theorem functionsOf_pieces (here stop : P) (xs : List (Node P)) :
    (((pieces here stop xs).1 :: (pieces here stop xs).2).flatMap fun d => Node.functionsOf d.rest).Sublist
      (Node.functionsOf xs) := by
  induction xs generalizing here with
  | nil =>
    rw [pieces, List.flatMap_singleton]
  | cons n xs ih =>
    rw [pieces, Node.functionsOf_cons]
    split
    · rw [List.flatMap_cons, Node.functionsOf]
      exact (ih n.finish).trans (List.sublist_append_right _ _)
    · rw [List.flatMap_cons, Node.functionsOf_cons, List.append_assoc (_ ++ _)]
      exact (ih here).append_left _

theorem functions_of_group {c : Cursor P} {ns : Namespace} {locate : P → Locator} {g : Group}
    (h : (c.group locate ns).result = .ok g) : g.functions.Sublist ((Node.functionsOf c.rest).map Component.kept) := by
  have hmembers := Grammar.functions_of_members (group_eq_ok_iff.1 h).2
  exact hmembers.trans ((functionsOf_pieces _ _ _).map _)

end Cursor

/-- Whether a function and its arguments are those of the text: the name without regard to case, and the
text inside the brackets without the blanks at its ends. Where these are blanks of style sheets, the
arguments have the tokens inside the brackets exactly if the last one stays the same before blanks. -/
structure KeptAs (f : String × String) (written : String × List Component) : Prop where
  name : f.1 = lower written.1
  arguments : f.2 = String.ofList (trim (Component.chars written.2))
  tokens_iff : CutsSpaces (Component.chars written.2) →
    (Token.ofChars f.2.toList = stripped (Component.flat written.2) ↔
      ∀ y ∈ (Lexeme.ofChars f.2.toList).getLast?, y.StaysBefore (blanksAfter (Component.chars written.2)))

theorem keptAs_kept {text : List Char} {f : String × List Component}
    (hf : f ∈ Component.functionsOf (Component.ofChars text)) : KeptAs (Component.kept f) f where
  name := rfl
  arguments := rfl
  tokens_iff := by
    intro hcuts
    have hflat : Component.flat f.2 = Token.ofChars (Component.chars f.2) := by
      rw [Token.ofChars, Component.ofChars_inside text f hf, Component.flat]
    rw [Component.kept, String.toList_ofList, hflat]
    exact Token.ofChars_trim_iff hcuts

namespace Group

theorem functions_sublist_of_parse {text : String} {o : Options} {g : Group} (h : (Group.parse text o).result = .ok g) :
    g.functions.Sublist ((Component.functionsOf (Component.ofChars text.toList)).map Component.kept) := by
  rw [← Node.functionsOf_ofComponents .start]
  exact Cursor.functions_of_group (Report.result_of_toParsed h)

/-- The functions of a group that was read are kept as they are in the text, in the same order. -/
theorem functions_of_parse {text : String} {o : Options} {g : Group} (h : (Group.parse text o).result = .ok g) :
    List.SublistForall₂ KeptAs g.functions (Component.functionsOf (Component.ofChars text.toList)) := by
  obtain ⟨fs, hfs, heq⟩ := List.sublist_map_iff.1 (functions_sublist_of_parse h)
  rw [heq, List.sublistForall₂_map_left_iff, List.sublistForall₂_iff]
  exact ⟨fs, List.forall₂_same.2 fun f hf => keptAs_kept (hfs.subset hf), hfs⟩

/-- A function whose arguments are a name that ends in an escaped space. -/
def escapedSpace : Group := ⟨.simple (.function "f" "a\\"), [], some ⟨0, 1, 1, none⟩⟩

/-- The nodes of `:f(a\ )`, each with its places. -/
def escapedNodes : List (Node Position) :=
  [.leaf .colon ⟨0, 0, 1⟩ ⟨1, 0, 2⟩,
    .block (.function "f") ⟨1, 0, 2⟩ ⟨3, 0, 4⟩ [.leaf (.ident "a ") ⟨3, 0, 4⟩ ⟨6, 0, 7⟩] ⟨6, 0, 7⟩ ⟨7, 0, 8⟩
      [.leaf ⟨.ident "a ", ['a', '\\', ' ']⟩]]

theorem lexemes_escapedSpace : Lexeme.ofChars ":f(a\\ )".toList =
    [⟨.colon, [':']⟩, ⟨.function "f", ['f', '(']⟩, ⟨.ident "a ", ['a', '\\', ' ']⟩, ⟨.closing .round, [')']⟩] := by
  decide +kernel

theorem parse_escapedSpace : (Group.parse ":f(a\\ )").result = .ok escapedSpace := by
  have hnodes : Cursor.ofChars ":f(a\\ )".toList = ⟨.start, escapedNodes, ⟨7, 0, 8⟩⟩ :=
    Cursor.ofChars_of_lexemes lexemes_escapedSpace (show _ = [.leaf _, .block _ [.leaf _] _] from rfl)
      (by simp only [Node.ofComponents]; rfl)
  have hfunction : Grammar.Parts .any escapedNodes [.function "f" "a\\"] :=
    .part (.of_function rfl (show escapedNodes[1].token = .function "f" from rfl) (by decide) (by decide) rfl) .nil
  exact parse_of_nodes hnodes rfl (.cons (Grammar.denotes_of_parts hfunction) .nil)

theorem functions_of_parse_escapedSpace :
    (Group.parse ":f(a\\ )").result = .ok escapedSpace ∧
      List.SublistForall₂ KeptAs escapedSpace.functions
        (Component.functionsOf (Component.ofChars ":f(a\\ )".toList)) :=
  ⟨parse_escapedSpace, functions_of_parse parse_escapedSpace⟩

/-- The arguments of `:f(a\ )` are one name that ends in a space, and what is kept of them is another. -/
theorem not_kept_escapedSpace :
    (Group.parse ":f(a\\ )").result = .ok escapedSpace ∧ escapedSpace.functions = [("f", "a\\")] ∧
      (Component.functionsOf (Component.ofChars ":f(a\\ )".toList)).map (fun f => stripped (Component.flat f.2)) =
        [[.ident "a "]] ∧
      Token.ofChars "a\\".toList = [.ident "a\uFFFD"] ∧ Token.ofChars "a\\".toList ≠ [.ident "a "] := by
  refine ⟨parse_escapedSpace, rfl, ?_, by decide +kernel, by decide +kernel⟩
  rw [Component.ofChars, lexemes_escapedSpace, show Component.ofLexemes _ = [.leaf _, .block _ [.leaf _] _] from rfl]
  simp only [Component.functionsOf]
  rfl

end Group

end StyleSelectors
