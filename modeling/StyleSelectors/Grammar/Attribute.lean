/-
What stands between the square brackets of an attribute selector: a name, perhaps of a namespace,
and perhaps an operator with its operand and flags. Blanks may stand anywhere but inside the name.
-/
import StyleSelectors.Grammar.Cursor

namespace StyleSelectors.Cursor

variable {P : Type}

/-- Whether the sign that ends a namespace is right ahead. -/
def atBar (c : Cursor P) : Bool := c.token? == some (.delim '|')

/-- A name right ahead. -/
def localName (c : Cursor P) : Except (Failure P) (String × Cursor P) :=
  match c.token? with
  | some (.ident name) => .ok (name, c.next)
  | _ => .error ⟨.expectedIdentifier, c.here⟩

/-- A name with its namespace, which is absent where nothing is written. -/
def attributeName (c : Cursor P) : Except (Failure P) ((Namespace × String) × Cursor P) :=
  match c.token? with
  | some (.ident name) =>
    if c.next.atBar then c.next.next.localName.map fun (found, d) => ((.named name, found), d)
    else .ok ((.absent, name), c.next)
  | some (.delim '*') =>
    if c.next.atBar then c.next.next.localName.map fun (found, d) => ((.any, found), d)
    else .error c.next.unexpected
  | some (.delim '|') => c.next.localName.map fun (found, d) => ((.absent, found), d)
  | _ => .error c.unexpected

/-- The test that an operator makes with its operand. -/
def valueTest? : Token → Option (String → ValueTest)
  | .delim '=' => some .equals
  | .matching op => some (.matching op)
  | _ => none

/-- An operand, after blanks. -/
def operand (c : Cursor P) : Except (Failure P) (String × Cursor P) :=
  match c.skipSpace.token? with
  | some (.ident value) => .ok (value, c.skipSpace.next)
  | some (.string value) => .ok (value, c.skipSpace.next)
  | some t => .error ⟨.unexpectedToken t, c.here⟩
  | none => .error ⟨.unexpectedEnd, c.stop⟩

/-- Whether flags come next, and what is after them. -/
def flags (c : Cursor P) : Bool × Cursor P :=
  match c.skipSpace.token? with
  | some (.ident _) => (true, c.skipSpace.next)
  | _ => (false, c)

/-- Only blanks are ahead. -/
def expectEnd (c : Cursor P) : Except (Failure P) Unit :=
  match c.skipSpace.token? with
  | some t => .error ⟨.unexpectedToken t, c.here⟩
  | none => .ok ()

/-- An attribute selector, and whether it has flags. -/
def attributeSelector (c : Cursor P) : Except (Failure P) (AttributeSelector × Bool) := do
  let ((ns, name), d) ← c.skipSpace.attributeName
  match d.skipSpace.token? with
  | none => return (⟨ns, name, .present⟩, false)
  | some operator =>
    match valueTest? operator with
    | none => throw ⟨.invalidAttributeOperator, d.here⟩
    | some test =>
      let (value, e) ← d.skipSpace.next.operand
      let (flagged, f) := e.flags
      f.expectEnd
      return (⟨ns, name, test value⟩, flagged)

end StyleSelectors.Cursor
