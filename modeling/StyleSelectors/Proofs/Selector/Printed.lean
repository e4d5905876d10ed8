/-
Selectors as their text has them. Options may give types a namespace with any label; in the text an
empty label is no label, and what stands in for NUL is there in its place. Apart from what keeps the
parts of it apart, a selector is written as `Selector.printed` is (`Simple.serialize_printed`).
-/
import StyleSelectors.Proofs.Selector.Legible
import StyleSelectors.Proofs.Token.Name
import StyleSelectors.Proofs.Token.Separator

namespace StyleSelectors

open Token

/-! ## Namespaces -/

namespace Namespace

/-- A namespace as its text has it. -/
def printed : Namespace → Namespace
  | .named label => if label = "" then .absent else .named (String.ofList (label.toList.map Text.shown))
  | ns => ns

variable {ns : Namespace}

theorem legible_printed (ns : Namespace) : ns.printed.Legible := by
  cases ns with
  | any | absent => trivial
  | named label =>
    rw [printed]
    split
    · trivial
    · next hlabel =>
      constructor
      · intro hempty
        have hmap := congrArg String.toList hempty
        rw [String.toList_ofList, String.toList_empty, List.map_eq_nil_iff] at hmap
        exact hlabel (String.toList_eq_nil_iff.1 hmap)
      · rw [String.toList_ofList]
        intro hnul
        obtain ⟨c, -, hc⟩ := List.mem_map.1 hnul
        exact Text.shown_ne_nul c hc

theorem Legible.printed (h : ns.Legible) : ns.printed = ns := by
  cases ns with
  | any | absent => rfl
  | named label =>
    have hmap : label.toList.map Text.shown = label.toList :=
      (List.map_congr_left fun c hc => Text.shown_of_ne_nul fun hnul => h.2 (hnul ▸ hc)).trans (List.map_id _)
    rw [Namespace.printed, if_neg h.1, hmap, String.ofList_toList]

/-- A name has the text that it has with its namespace printed. -/
theorem serialize_printed (ns : Namespace) (name : String) :
    serialize (ns.printed.tokens .any ++ [.ident name]) = serialize (ns.tokens .any ++ [.ident name]) := by
  cases ns with
  | any | absent => rfl
  | named label =>
    have htokens (l : String) : serialize ((named l).tokens .any ++ [.ident name]) =
        writeIdentifier l.toList ++ serialize [.delim '|', .ident name] :=
      serialize_cons (t := .ident l) fun next hnext => by cases hnext; rfl
    rw [printed]
    split
    · next hlabel => rw [htokens, hlabel]; rfl
    · rw [htokens, htokens, String.toList_ofList, writeIdentifier_shown]

end Namespace

/-! ## Parts -/

namespace Simple

/-- A simple selector as its text has it. -/
def printed : Simple → Simple
  | .type t => .type ⟨t.ns.printed, t.name⟩
  | .negation inner => .negation inner.printed
  | s => s

theorem Legible.printed {s : Simple} (h : s.Legible) : s.printed = s := by
  induction s with
  | type t => rw [Simple.printed, h.1.printed]
  | negation inner ih => rw [Simple.printed, ih h]
  | _ => rfl

theorem dashed_printed (s : Simple) : s.printed.dashed = s.dashed := by
  cases s <;> rfl

theorem serialize_negation (inner : Simple) :
    serialize (negation inner).tokens = ':' :: 'n' :: 'o' :: 't' :: '(' :: (serialize inner.tokens ++ [')']) := by
  rw [tokens, serialize_append_closing, serialize_cons (fun next hnext => by cases hnext; rfl),
    serialize_cons (fun _ _ => rfl), List.append_assoc]
  rfl

/-- A simple selector is written as it is printed. -/
theorem serialize_printed (s : Simple) : serialize s.printed.tokens = serialize s.tokens := by
  induction s with
  | type t => exact t.ns.serialize_printed t.name
  | negation inner ih => rw [printed, serialize_negation, serialize_negation, ih]
  | _ => rfl

end Simple

/-! ## Whole selectors -/

namespace Selector

/-- A selector with every part put through a map. -/
def map (f : Simple → Simple) : Selector → Selector
  | .simple s => .simple (f s)
  | .both first second locator => .both (f first) (second.map f) locator
  | .related link first second locator => .related link (f first) (second.map f) locator

theorem parts_map (f : Simple → Simple) (s : Selector) : (s.map f).parts = s.parts.map f := by
  induction s with
  | simple s => rfl
  | both first second _ ih => exact congrArg (f first :: ·) ih
  | related link first second _ ih => exact congrArg (f first :: ·) ih

theorem map_congr {f g : Simple → Simple} {s : Selector} (h : ∀ p ∈ s.parts, f p = g p) : s.map f = s.map g := by
  induction s with
  | simple s => rw [map, map, h s (List.mem_singleton_self s)]
  | both first second _ ih | related link first second _ ih =>
    obtain ⟨hfirst, hsecond⟩ := List.forall_mem_cons.1 h
    rw [map, map, hfirst, ih hsecond]

theorem map_id (s : Selector) : s.map (fun p => p) = s := by
  induction s with
  | simple s => rfl
  | both first second _ ih | related link first second _ ih => rw [map, ih]

/-- A selector as its text has it. -/
def printed (s : Selector) : Selector := s.map Simple.printed

theorem Legible.printed {s : Selector} (h : s.Legible) : s.printed = s :=
  (map_congr fun p hp => (h p hp).printed).trans s.map_id

theorem closesMarkup_printed (s : Selector) : s.printed.closesMarkup = s.closesMarkup := by
  induction s with
  | simple s => rfl
  | both first second _ ih => exact ih
  | related link first second _ ih =>
    rw [printed, map, closesMarkup, closesMarkup, first.dashed_printed]
    exact congrArg (link == .child && first.dashed || ·) ih

end Selector

end StyleSelectors
