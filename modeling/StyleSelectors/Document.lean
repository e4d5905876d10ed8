/-
Documents held in memory. An element is the number of elements put in before it; its parent is one
of these, and its previous sibling is the last one put in under the same parent, or the last one
without a parent. So both lead to smaller numbers, and putting in an element leaves the answers for
the others as they were (`answers_append`).
-/
import StyleSelectors.Matching.Model

namespace StyleSelectors

/-! ## Elements -/

structure Attribute where
  ns : Option String
  name : String
  value : String
deriving DecidableEq, Repr

/-- What an element says about itself. -/
structure ElementData where
  tag : String
  ns : Option String := none
  id : Option String := none
  classes : List String := []
  pseudoClasses : List String := []
  attributes : List Attribute := []
deriving DecidableEq, Repr

/-- Whether a namespace is what a selector asks for. -/
def Namespace.admits (ns : Namespace) (actual : Option String) : Bool :=
  match ns with
  | .any => true
  | .absent => actual.isNone
  | .named label => actual == some label

structure Element where
  data : ElementData
  parent : Option Nat
  previousSibling : Option Nat
deriving DecidableEq, Repr

/-! ## Documents -/

/-- Elements, each of which points to earlier ones only. -/
structure Document where
  elements : Array Element
  parent_lt : ∀ i (e : Element) p, elements[i]? = some e → e.parent = some p → p < i
  previousSibling_lt : ∀ i (e : Element) p, elements[i]? = some e → e.previousSibling = some p → p < i

namespace Document

def empty : Document := ⟨#[], by simp, by simp⟩

def size (d : Document) : Nat := d.elements.size

/-- The last of the elements before `i` whose parent is `parent`. -/
def lastUnder (elements : Array Element) (parent : Option Nat) : Nat → Option Nat
  | 0 => none
  | i + 1 => if elements[i]?.any fun e => e.parent == parent then some i else lastUnder elements parent i

theorem lastUnder_lt {elements : Array Element} {parent : Option Nat} {i p : Nat}
    (h : lastUnder elements parent i = some p) : p < i := by
  induction i with
  | zero => cases h
  | succ i ih =>
    unfold lastUnder at h
    split at h
    · cases h; exact Nat.lt_succ_self _
    · exact Nat.lt_succ_of_lt (ih h)

theorem getElem?_push_cases {elements : Array Element} {x e : Element} {i : Nat}
    (h : (elements.push x)[i]? = some e) : elements[i]? = some e ∨ (i = elements.size ∧ e = x) := by
  rw [Array.getElem?_push] at h
  split at h
  · next hi => cases h; exact Or.inr ⟨hi, rfl⟩
  · exact Or.inl h

/-- Puts an element in, as the last child of its parent or as the last without one. -/
def append (d : Document) (parent : Option (Fin d.size)) (data : ElementData) : Document :=
  let parent? := parent.map Fin.val
  let x : Element := ⟨data, parent?, lastUnder d.elements parent? d.size⟩
  { elements := d.elements.push x
    parent_lt := by
      intro i e p h hp
      rcases getElem?_push_cases h with h | ⟨rfl, rfl⟩
      · exact d.parent_lt i e p h hp
      · obtain ⟨q, -, rfl⟩ := Option.map_eq_some_iff.1 hp
        exact q.isLt
    previousSibling_lt := by
      intro i e p h hp
      rcases getElem?_push_cases h with h | ⟨rfl, rfl⟩
      · exact d.previousSibling_lt i e p h hp
      · exact lastUnder_lt hp }

theorem elements_append (d : Document) (parent : Option (Fin d.size)) (data : ElementData) :
    (d.append parent data).elements =
      d.elements.push ⟨data, parent.map Fin.val, lastUnder d.elements (parent.map Fin.val) d.size⟩ := rfl

theorem getElem?_append {d : Document} {i : Nat} (h : i < d.size) (parent : Option (Fin d.size)) (data : ElementData) :
    (d.append parent data).elements[i]? = d.elements[i]? := by
  have : i ≠ d.elements.size := Nat.ne_of_lt h
  simp [elements_append, Array.getElem?_push, this]

@[simp] theorem size_append (d : Document) (parent : Option (Fin d.size)) (data : ElementData) :
    (d.append parent data).size = d.size + 1 := by
  simp [size, elements_append]

/-- What element `i` says about itself. -/
def data? (d : Document) (i : Nat) : Option ElementData := d.elements[i]?.map Element.data

def parent? (d : Document) (i : Nat) : Option Nat := d.elements[i]?.bind Element.parent

def previousSibling? (d : Document) (i : Nat) : Option Nat := d.elements[i]?.bind Element.previousSibling

/-- The value of the first attribute of the name in a namespace that is asked for. -/
def attribute? (d : Document) (i : Nat) (ns : Namespace) (name : String) : Option String := do
  let data ← d.data? i
  let found ← data.attributes.find? fun a => a.name == name && ns.admits a.ns
  return found.value

/-- The answers for the elements in a document stay when another is put in. -/
theorem answers_append {d : Document} {i : Nat} (h : i < d.size) (parent : Option (Fin d.size)) (data : ElementData) :
    (d.append parent data).data? i = d.data? i ∧ (d.append parent data).parent? i = d.parent? i ∧
      (d.append parent data).previousSibling? i = d.previousSibling? i := by
  simp [data?, parent?, previousSibling?, getElem?_append h]

theorem parent?_lt {d : Document} {i p : Nat} (h : d.parent? i = some p) : p < i := by
  obtain ⟨e, he, hp⟩ := Option.bind_eq_some_iff.1 h
  exact d.parent_lt i e p he hp

theorem previousSibling?_lt {d : Document} {i p : Nat} (h : d.previousSibling? i = some p) : p < i := by
  obtain ⟨e, he, hp⟩ := Option.bind_eq_some_iff.1 h
  exact d.previousSibling_lt i e p he hp

/-- What matching sees of a document. -/
def model (d : Document) : Model Nat where
  hasType i ns name := (d.data? i).any fun e => e.tag == name && ns.admits e.ns
  hasId i name := (d.data? i).any fun e => e.id == some name
  hasClass i name := (d.data? i).any fun e => e.classes.contains name
  hasPseudoClass i name := (d.data? i).any fun e => e.pseudoClasses.contains name
  attribute? := d.attribute?
  parent? := d.parent?
  previousSibling? := d.previousSibling?
  parent_wf := Subrelation.wf parent?_lt Nat.lt_wfRel.wf
  previousSibling_wf := Subrelation.wf previousSibling?_lt Nat.lt_wfRel.wf

/-- An element is of no type but the one it says it is. -/
theorem eq_tag_of_hasType {d : Document} {i : Nat} {e : ElementData} (he : d.data? i = some e) {ns : Namespace}
    {name : String} (h : d.model.hasType i ns name = true) : name = e.tag := by
  have htype : ((d.data? i).any fun e => e.tag == name && ns.admits e.ns) = true := h
  rw [he, Option.any_some, Bool.and_eq_true, beq_iff_eq] at htype
  exact htype.1.symm

end Document

end StyleSelectors
