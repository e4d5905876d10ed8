/-
From text to selectors. `Group.parse` reads a list of selectors with commas between them, and
`Selector.parse` one selector, to which a comma does not belong. Both give what they read, or the
first failure, with all remarks made on the way. Options say what goes without saying and where
the text comes from; they do not bear on which texts are read.
-/
import StyleSelectors.Grammar.Complex

namespace StyleSelectors

open Text

/-! ## Options and errors -/

structure Options where
  /-- The namespace of types that are written without one. -/
  defaultNamespace : Namespace := .any
  /-- What the text belongs to. -/
  source : Option String := none
  /-- How many lines of the source come before the text. -/
  lineOffset : Nat := 0
deriving DecidableEq, Repr

/-- The greatest line number that is told. -/
def lastLine : Nat := 0xFFFFFFFF

namespace Options

/-- The number of a line of the source, from 1, for a line of the text, from 0. -/
def displayLine (o : Options) (line : Nat) : Nat := min lastLine (line + o.lineOffset + 1)

def locate (o : Options) (p : Position) : Locator :=
  ⟨p.offset, o.displayLine p.line, p.column, o.source⟩

end Options

/-- Bytes before a line of a text, counting LF alone as its end. -/
def lineStart : Nat → List Char → Nat
  | 0, _ => 0
  | _, [] => 0
  | line + 1, c :: rest => c.utf8Size + lineStart (if c = '\n' then line else line + 1) rest

/-- The offset that is told for a line and a column of a text. -/
def byteOffset (cs : List Char) (line column : Nat) : Nat :=
  min (lineStart line cs + (column - 1)) (byteLength cs)

structure ParseError where
  cause : Cause
  locator : Locator
deriving DecidableEq, Repr

def ParseError.message (e : ParseError) : String := e.locator.display ++ ": " ++ e.cause.message

/-- A failure as it is told: its offset comes from its line and column. -/
def Failure.toError (o : Options) (cs : List Char) (f : Failure Position) : ParseError :=
  { cause := f.cause
    locator :=
      { o.locate f.place with offset := byteOffset cs f.place.line f.place.column } }

/-! ## One selector and many -/

namespace Cursor

variable {P : Type}

/-- The selector from here to the end. -/
def selector (locate : P → Locator) (ns : Namespace) (c : Cursor P) : Report P Selector :=
  (c.skipSpace.complex ns).bind (Complex.selector locate)

/-- The selectors of several stretches, in order. -/
def selectors (locate : P → Locator) (ns : Namespace) : List (Cursor P) → Report P (List Selector)
  | [] => .ok []
  | c :: rest => (c.selector locate ns).bind fun s => (selectors locate ns rest).map (s :: ·)

/-- The group from here to the end. -/
def group (locate : P → Locator) (ns : Namespace) (c : Cursor P) : Report P Group :=
  let members := pieces c.here c.stop c.rest
  (members.1.selector locate ns).bind fun s =>
    (selectors locate ns members.2).map fun rest => ⟨s, rest, some (locate c.here)⟩

end Cursor

/-! ## Text -/

/-- What came of reading a text: a value or an error, and the remarks on the way. -/
structure Parsed (α : Type) where
  remarks : List String
  result : Except ParseError α

def Report.toParsed {α : Type} (o : Options) (cs : List Char) (r : Report Position α) : Parsed α :=
  ⟨r.remarks.map (Unsupported.message o.locate), r.result.mapError (Failure.toError o cs)⟩

/-- Reads one selector. -/
def Selector.parse (text : String) : Parsed Selector :=
  let cs := text.toList
  ((Cursor.ofChars cs).selector (Options.locate {}) .any).toParsed {} cs

/-- Reads a list of selectors with commas between them. -/
def Group.parse (text : String) (o : Options := {}) : Parsed Group :=
  let cs := text.toList
  ((Cursor.ofChars cs).group o.locate o.defaultNamespace).toParsed o cs

end StyleSelectors
