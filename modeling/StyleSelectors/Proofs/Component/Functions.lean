/-
The functions of a text, each with what is inside its brackets. A block that nothing closes runs to the
end of the text (`boundedAll_ofChars`), and any other to its closing bracket; so what is inside a
function is read there as it would be by itself (`ofChars_inside`).
-/
import StyleSelectors.Proofs.Component.ReadFrom

namespace StyleSelectors

open Text

/-- The name of the function that a token opens. -/
def Token.functionName? : Token → Option String
  | .function name => some name
  | _ => none

theorem Token.eq_function_of_functionName? {t : Token} {name : String} (h : t.functionName? = some name) :
    t = .function name := by
  cases t <;> first | cases h; rfl | cases h

namespace Component

/-- All functions of components, in the order of their names, each with what is inside. -/
def functionsOf : List Component → List (String × List Component)
  | [] => []
  | .leaf x :: rest => x.token.functionName?.toList.map (·, []) ++ functionsOf rest
  | .block head inside _ :: rest =>
    head.token.functionName?.toList.map (·, inside) ++ functionsOf inside ++ functionsOf rest

/-! ## Where blocks end -/

mutual

/-- Whether each block of a component, with some lexemes after it in the text, ends with its closing
bracket or at the end of the text. -/
def Bounded (after : List Lexeme) : Component → Prop
  | .leaf _ => True
  | .block _ inside none => after = [] ∧ BoundedAll [] inside
  | .block head inside (some x) => x.token.closes? = head.token.opens? ∧ BoundedAll (x :: after) inside

def BoundedAll (after : List Lexeme) : List Component → Prop
  | [] => True
  | c :: rest => Bounded (lexemesOf rest ++ after) c ∧ BoundedAll after rest

end

theorem boundedAll_append {after : List Lexeme} {cs ds : List Component} :
    BoundedAll after (cs ++ ds) ↔ BoundedAll (lexemesOf ds ++ after) cs ∧ BoundedAll after ds := by
  induction cs with
  | nil => simp [BoundedAll]
  | cons c cs ih => simp only [List.cons_append, BoundedAll, ih, lexemesOf_append, List.append_assoc, and_assoc]

mutual

theorem bounded_of_whole {b? : Option Bracket} (c : Component) (after : List Lexeme) (h : Whole b? c) :
    Bounded after c := by
  match c with
  | .leaf x =>
    rw [Bounded]
    trivial
  | .block head inside close =>
    rw [Whole] at h
    obtain ⟨b, x, hopen, rfl, hclose, hinside⟩ := h
    rw [Bounded]
    exact ⟨hclose.trans hopen.symm, boundedAll_of_wholeAll inside _ hinside⟩

theorem boundedAll_of_wholeAll {b? : Option Bracket} (cs : List Component) (after : List Lexeme)
    (h : WholeAll b? cs) : BoundedAll after cs := by
  match cs with
  | [] =>
    rw [BoundedAll]
    trivial
  | c :: cs =>
    rw [WholeAll] at h
    rw [BoundedAll]
    exact ⟨bounded_of_whole c _ h.1, boundedAll_of_wholeAll cs _ h.2⟩

end

/-- Whatever is open at the end of a text runs to this end. -/
theorem boundedAll_closeAll {blocks : List OpenBlock} {done : List Component}
    (h : ∀ b ∈ blocks, ∃ b?, WholeAll b? b.before) (hdone : BoundedAll [] done.reverse) :
    BoundedAll [] (closeAll blocks done) := by
  induction blocks generalizing done with
  | nil => exact hdone
  | cons b outer ih =>
    obtain ⟨⟨b?, hbefore⟩, houter⟩ := List.forall_mem_cons.1 h
    refine ih houter ?_
    rw [List.reverse_cons, boundedAll_append]
    refine ⟨boundedAll_of_wholeAll _ _ (wholeAll_reverse.2 hbefore), ?_, trivial⟩
    rw [Bounded]
    exact ⟨rfl, hdone⟩

/-- What stands before the blocks that are open is whole. -/
theorem wholeAll_before_of_held {blocks : List OpenBlock} {done : List Component} (h : Held blocks done) :
    (∃ b?, WholeAll b? done) ∧ ∀ b ∈ blocks, ∃ b?, WholeAll b? b.before := by
  induction blocks generalizing done with
  | nil => exact ⟨⟨none, h⟩, nofun⟩
  | cons b outer ih =>
    obtain ⟨⟨k, -, hdone⟩, houter⟩ := h
    obtain ⟨hbefore, hall⟩ := ih houter
    exact ⟨⟨some k, hdone⟩, List.forall_mem_cons.2 ⟨hbefore, hall⟩⟩

theorem boundedAll_ofChars (cs : List Char) : BoundedAll [] (ofChars cs) := by
  have hstart : Held [] [] := trivial
  obtain ⟨blocks, done, hnest, hheld⟩ := held_nest (Lexeme.ofChars cs) hstart
  obtain ⟨⟨b?, hdone⟩, hblocks⟩ := wholeAll_before_of_held hheld
  rw [ofChars, ofLexemes, hnest]
  exact boundedAll_closeAll hblocks (boundedAll_of_wholeAll _ _ (wholeAll_reverse.2 hdone))

/-! ## What is inside a function -/

/-- The inside of a function reads by itself as it does in the text, also if the function is inside
another block. -/
theorem ofChars_inside_of_bounded {cs : List Component} {after : List Lexeme} (h : BoundedAll after cs)
    (hread : Lexeme.ofChars (Lexeme.chars (lexemesOf cs ++ after)) = lexemesOf cs ++ after) :
    ∀ f ∈ functionsOf cs, Lexeme.ofChars (chars f.2) = lexemesOf f.2 := by
  fun_induction functionsOf cs generalizing after with
  | case1 => exact nofun
  | case2 x rest ih =>
    rw [BoundedAll] at h
    rw [List.forall_mem_append, List.forall_mem_map]
    refine ⟨fun _ _ => by rw [chars, lexemesOf, Lexeme.chars, List.flatMap_nil, Lexeme.ofChars], ih h.2 ?_⟩
    exact Lexeme.ofChars_suffix (show _ = [x] ++ (lexemesOf rest ++ after) from hread)
  | case3 head inside close rest ihInside ih =>
    rw [BoundedAll] at h
    -- what is inside, its end and what comes after it, as they are read from there on
    have hinside : Lexeme.ofChars (Lexeme.chars (lexemesOf inside ++ (close.toList ++ (lexemesOf rest ++ after)))) =
        lexemesOf inside ++ (close.toList ++ (lexemesOf rest ++ after)) := by
      have hall : lexemesOf (.block head inside close :: rest) ++ after =
          [head] ++ (lexemesOf inside ++ (close.toList ++ (lexemesOf rest ++ after))) := by
        simp only [lexemesOf, lexemes, List.cons_append, List.append_assoc, List.nil_append]
      exact Lexeme.ofChars_suffix (hread.trans hall)
    have hmore : Lexeme.ofChars (Lexeme.chars (lexemesOf rest ++ after)) = lexemesOf rest ++ after :=
      Lexeme.ofChars_suffix (show _ = (lexemesOf inside ++ close.toList) ++ _ by rw [hinside, List.append_assoc])
    rw [List.append_assoc, List.forall_mem_append, List.forall_mem_append, List.forall_mem_map]
    cases close with
    | none =>
      rw [Bounded] at h
      obtain ⟨⟨hafter, hbounded⟩, hrest⟩ := h
      rw [hafter, Option.toList_none, List.append_nil, List.append_nil] at hinside
      refine ⟨fun _ _ => hinside, ihInside hbounded ?_, ih hrest hmore⟩
      rw [List.append_nil]
      exact hinside
    | some x =>
      rw [Bounded] at h
      obtain ⟨⟨hclose, hbounded⟩, hrest⟩ := h
      rw [Option.toList_some, List.singleton_append] at hinside
      refine ⟨fun name hname => ?_, ihInside hbounded hinside, ih hrest hmore⟩
      -- a function is closed by a round bracket, which is one character
      rw [Token.eq_function_of_functionName? (Option.mem_toList.1 hname)] at hclose
      have hx := lexeme_of_closes? (Lexeme.ofChars_suffix hinside) hclose
      exact Lexeme.ofChars_front (.inl rfl) (congrArg Lexeme.text hx) hinside

theorem ofChars_inside (cs : List Char) :
    ∀ f ∈ functionsOf (ofChars cs), Lexeme.ofChars (chars f.2) = lexemesOf f.2 := by
  refine ofChars_inside_of_bounded (boundedAll_ofChars cs) ?_
  rw [List.append_nil, ofChars, lexemesOf_ofLexemes, Lexeme.chars_ofChars]

end Component

end StyleSelectors
