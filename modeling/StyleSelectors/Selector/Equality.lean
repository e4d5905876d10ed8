/-
Equality of selectors and groups, blind to locators, and hashing that goes with it. What is hashed
is a sequence of keys, the same for equal selectors (`keys_eq_of_beq`).
-/
import StyleSelectors.Selector.Basic

namespace StyleSelectors

/-! ## Equality -/

/-- Whether two selectors differ in their locators at most. -/
def Selector.same : Selector → Selector → Bool
  | .simple s, .simple t => s == t
  | .both first second _, .both first' second' _ => first == first' && second.same second'
  | .related link first second _, .related link' first' second' _ =>
    link == link' && first == first' && second.same second'
  | _, _ => false

instance : BEq Selector := ⟨Selector.same⟩

/-- Whether two groups have equal members in the same order. -/
def Group.same (g h : Group) : Bool := g.members == h.members

instance : BEq Group := ⟨Group.same⟩

theorem Selector.same_iff_erase (s t : Selector) : s.same t = true ↔ s.erase = t.erase := by
  induction s generalizing t with
  | simple s => cases t <;> simp [same, erase]
  | both first second _ ih => cases t <;> simp [same, erase, ih]
  | related link first second _ ih => cases t <;> simp [same, erase, ih, and_assoc]

theorem Selector.beq_iff_erase (s t : Selector) : (s == t) = true ↔ s.erase = t.erase :=
  s.same_iff_erase t

instance : EquivBEq Selector where
  rfl := (Selector.beq_iff_erase _ _).2 rfl
  symm h := (Selector.beq_iff_erase _ _).2 ((Selector.beq_iff_erase _ _).1 h).symm
  trans h h' :=
    (Selector.beq_iff_erase _ _).2 (((Selector.beq_iff_erase _ _).1 h).trans ((Selector.beq_iff_erase _ _).1 h'))

theorem Selector.beqList_iff_erase (ss ts : List Selector) :
    (ss == ts) = true ↔ ss.map erase = ts.map erase := by
  induction ss generalizing ts with
  | nil => cases ts <;> simp
  | cons s ss ih => cases ts <;> simp [beq_iff_erase, ih]

theorem Group.beq_iff_erase (g h : Group) :
    (g == h) = true ↔ g.members.map Selector.erase = h.members.map Selector.erase :=
  Selector.beqList_iff_erase g.members h.members

instance : EquivBEq Group where
  rfl := (Group.beq_iff_erase _ _).2 rfl
  symm h := (Group.beq_iff_erase _ _).2 ((Group.beq_iff_erase _ _).1 h).symm
  trans h h' := (Group.beq_iff_erase _ _).2 (((Group.beq_iff_erase _ _).1 h).trans ((Group.beq_iff_erase _ _).1 h'))

/-! ## Hashing -/

/-- One step of what is fed to a hash function. -/
inductive HashKey where
  | tag (n : Nat)
  | text (s : String)
deriving DecidableEq, Hashable

namespace HashKey

def hashAll (keys : List HashKey) : UInt64 := keys.foldl (fun h k => mixHash h (hash k)) 7

end HashKey

def Namespace.keys : Namespace → List HashKey
  | .any => [.tag 0]
  | .absent => [.tag 1]
  | .named label => [.tag 2, .text label]

def TypeName.keys (t : TypeName) : List HashKey := t.ns.keys ++ [.text t.name]

def MatchOperator.key : MatchOperator → HashKey
  | .word => .tag 0
  | .dash => .tag 1
  | .start => .tag 2
  | .finish => .tag 3
  | .part => .tag 4

def ValueTest.keys : ValueTest → List HashKey
  | .present => [.tag 0]
  | .equals operand => [.tag 1, .text operand]
  | .matching op operand => [.tag 2, op.key, .text operand]

def AttributeSelector.keys (a : AttributeSelector) : List HashKey :=
  a.ns.keys ++ .text a.name :: a.test.keys

def Simple.keys : Simple → List HashKey
  | .universal => [.tag 0]
  | .type t => .tag 1 :: t.keys
  | .id name => [.tag 2, .text name]
  | .className name => [.tag 3, .text name]
  | .pseudoClass name => [.tag 4, .text name]
  | .function name arguments => [.tag 5, .text name, .text arguments]
  | .negation inner => .tag 6 :: inner.keys
  | .attr a => .tag 7 :: a.keys
  | .nothing => [.tag 8]

def Combinator.key : Combinator → HashKey
  | .descendant => .tag 0
  | .child => .tag 1
  | .adjacentSibling => .tag 2
  | .generalSibling => .tag 3

def Selector.keys : Selector → List HashKey
  | .simple s => .tag 0 :: s.keys
  | .both first second _ => .tag 1 :: first.keys ++ second.keys
  | .related link first second _ => .tag 2 :: link.key :: first.keys ++ second.keys

def Group.keys (g : Group) : List HashKey := .tag g.members.length :: g.members.flatMap Selector.keys

instance : Hashable Selector := ⟨fun s => HashKey.hashAll s.keys⟩

instance : Hashable Group := ⟨fun g => HashKey.hashAll g.keys⟩

theorem Selector.keys_erase (s : Selector) : s.erase.keys = s.keys := by
  induction s with
  | simple s => rfl
  | both first second _ ih => simp [erase, keys, ih]
  | related link first second _ ih => simp [erase, keys, ih]

theorem Selector.keys_eq_of_beq {s t : Selector} (h : (s == t) = true) : s.keys = t.keys := by
  rw [← s.keys_erase, ← t.keys_erase, (Selector.beq_iff_erase s t).1 h]

theorem Group.keys_eq_of_beq {g h : Group} (e : (g == h) = true) : g.keys = h.keys := by
  have hkeys (ss : List Selector) : ss.flatMap Selector.keys = (ss.map Selector.erase).flatMap Selector.keys := by
    simp [List.flatMap_map, Selector.keys_erase]
  have e := (Group.beq_iff_erase g h).1 e
  rw [Group.keys, Group.keys, hkeys, hkeys h.members, e, ← List.length_map Selector.erase, e, List.length_map]

instance : LawfulHashable Selector := ⟨fun _ _ h => congrArg HashKey.hashAll (Selector.keys_eq_of_beq h)⟩

instance : LawfulHashable Group := ⟨fun _ _ h => congrArg HashKey.hashAll (Group.keys_eq_of_beq h)⟩

end StyleSelectors
