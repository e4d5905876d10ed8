/-
What the options of reading bear on. A sketch is a selector with two things left open: the namespace
of the types that are written without one, and how places are told. Reading a text comes to one and
the same sketch, or to one and the same failure, whatever the options are, and these only fill it in:
`Group.parse_eq_sketch`.
-/
import StyleSelectors.Proofs.Grammar.Denoted

namespace StyleSelectors

variable {P : Type}

/-! ## Sketches -/

inductive Simple.Sketch where
  /-- A type without a prefix. -/
  | bare (name : String)
  | negation (inner : Simple.Sketch)
  /-- A simple selector that is what it is under all options. -/
  | whole (s : Simple)

structure Compound.Sketch (P : Type) where
  place : P
  first : Simple.Sketch
  others : List Simple.Sketch

inductive Complex.Sketch (P : Type) where
  | subject (k : Compound.Sketch P)
  | link (k : Compound.Sketch P) (combinator : Combinator) (rest : Complex.Sketch P)

inductive Selector.Sketch (P : Type) where
  | simple (s : Simple.Sketch)
  | both (first : Simple.Sketch) (second : Selector.Sketch P) (place : P)
  | related (link : Combinator) (first : Simple.Sketch) (second : Selector.Sketch P) (place : P)

structure Group.Sketch (P : Type) where
  first : Selector.Sketch P
  others : List (Selector.Sketch P)
  place : P

/-- The simple selector where types without a prefix are in a namespace. -/
def Simple.Sketch.fill (ns : Namespace) : Simple.Sketch → Simple
  | .bare name => .type ⟨ns, name⟩
  | .negation inner => .negation (inner.fill ns)
  | .whole s => s

def Compound.Sketch.fill (ns : Namespace) (k : Compound.Sketch P) : Compound P :=
  ⟨k.place, k.first.fill ns, k.others.map (Simple.Sketch.fill ns)⟩

def Complex.Sketch.fill (ns : Namespace) : Complex.Sketch P → Complex P
  | .subject k => .subject (k.fill ns)
  | .link k combinator rest => .link (k.fill ns) combinator (rest.fill ns)

def Selector.Sketch.fill (locate : P → Locator) (ns : Namespace) : Selector.Sketch P → Selector
  | .simple s => .simple (s.fill ns)
  | .both first second place => .both (first.fill ns) (second.fill locate ns) (some (locate place))
  | .related link first second place =>
    .related link (first.fill ns) (second.fill locate ns) (some (locate place))

open Text (Position)

/-- The selector that a sketch is under some options. -/
def Selector.Sketch.under (o : Options) (k : Selector.Sketch Position) : Selector := k.fill o.locate o.defaultNamespace

def Group.Sketch.under (o : Options) (k : Group.Sketch Position) : Group :=
  ⟨k.first.under o, k.others.map (Selector.Sketch.under o), some (o.locate k.place)⟩

theorem Simple.Sketch.fill_eq_nothing {ns : Namespace} {k : Simple.Sketch} :
    k.fill ns = .nothing ↔ k = .whole .nothing := by
  cases k <;> simp [fill]

/-! ## Uniform reports -/

namespace Report

variable {ι α β γ δ : Type} {r : ι → Report P β} {fill : ι → α → β}

/-- Whether reports are all of the same, which each fills in in its own way. -/
def Uniform (r : ι → Report P β) (fill : ι → α → β) : Prop := ∃ k : Report P α, ∀ i, r i = k.map (fill i)

namespace Uniform

theorem ok (fill : ι → α → β) (a : α) : Uniform (P := P) (fun i => .ok (fill i a)) fill := ⟨.ok a, fun _ => rfl⟩

theorem fail (e : Failure P) : Uniform (fun _ => .fail e) fill := ⟨.fail e, fun _ => rfl⟩

theorem remark (h : Uniform r fill) (why : Unsupported P) : Uniform (fun i => .remark why (r i)) fill := by
  obtain ⟨k, hk⟩ := h
  exact ⟨.remark why k, fun i => congrArg (Report.remark why) (hk i)⟩

theorem map {f : ι → β → δ} {g : α → γ} {fill' : ι → γ → δ} (h : Uniform r fill)
    (hf : ∀ i a, f i (fill i a) = fill' i (g a)) : Uniform (fun i => (r i).map (f i)) fill' := by
  obtain ⟨k, hk⟩ := h
  refine ⟨k.map g, fun i => ?_⟩
  simp only [hk, Report.map]
  cases k.result with
  | error e => rfl
  | ok a => simp only [Except.map, hf]

/-- What comes next may be taken to follow on what the first came to. -/
theorem bind {f : ι → β → Report P δ} {fill' : ι → γ → δ} (h : Uniform r fill)
    (hf : ∀ a, (∀ i, (r i).result = .ok (fill i a)) → Uniform (fun i => f i (fill i a)) fill') :
    Uniform (fun i => (r i).bind (f i)) fill' := by
  obtain ⟨k, hk⟩ := h
  cases hresult : k.result with
  | error e =>
    refine ⟨⟨k.remarks, .error e⟩, fun i => ?_⟩
    simp only [hk, Report.bind, Report.map, hresult]
    rfl
  | ok a =>
    obtain ⟨k', hk'⟩ := hf a fun i => by rw [hk, Report.map, hresult]; rfl
    refine ⟨⟨k.remarks ++ k'.remarks, k'.result⟩, fun i => ?_⟩
    simp only [hk, Report.bind, Report.map, hresult, Except.map, hk']

/-- The same for fewer of them. -/
theorem comp {κ : Type} (h : Uniform r fill) (j : κ → ι) : Uniform (fun i => r (j i)) fun i => fill (j i) := by
  obtain ⟨k, hk⟩ := h
  exact ⟨k, fun i => hk (j i)⟩

end Uniform

end Report

open Report (Uniform)

/-! ## Compounds -/

namespace Cursor

variable {c d : Cursor P}

/-- What is right ahead is a type without a prefix, or is the same whatever namespace that is. -/
theorem item?_bare_or_same (c : Cursor P) :
    (∃ name d, ∀ ns, c.item? ns = .ok (some (.simple (.type ⟨ns, name⟩), d))) ∨ ∀ ns ms, c.item? ns = c.item? ms := by
  cases hc : c.rest with
  | nil => exact .inr fun ns ms => by simp only [item?, hc]
  | cons n rest =>
    by_cases hident : ∃ name, n.token = .ident name
    · obtain ⟨name, hn⟩ := hident
      by_cases hbar : c.next.atBar = true
      · refine .inr fun ns ms => ?_
        rw [item?_ident hc hn, item?_ident hc hn, typeAfter, typeAfter, if_pos hbar, if_pos hbar]
      · refine .inl ⟨name, c.next, fun ns => ?_⟩
        rw [item?_ident hc hn, typeAfter, if_neg hbar]
        rfl
    · refine .inr fun ns ms => ?_
      simp only [item?, hc]
      split
      · next name hn => exact absurd ⟨name, hn⟩ hident
      all_goals rfl

/-- Parts and what is after them, in a namespace. -/
def fillAll (ns : Namespace) : List Simple.Sketch × Cursor P → List Simple × Cursor P
  | (ks, d) => (ks.map (Simple.Sketch.fill ns), d)

def fillCompound (ns : Namespace) : Compound.Sketch P × Cursor P → Compound P × Cursor P
  | (k, d) => (k.fill ns, d)

theorem uniform_compoundOf (c : Cursor P) (ks : List Simple.Sketch × Cursor P) :
    Uniform (fun ns => c.compoundOf (fillAll ns ks)) fillCompound := by
  obtain ⟨ks, d⟩ := ks
  cases ks with
  | nil => exact .fail _
  | cons k ks => exact .ok fillCompound (⟨c.here, k, ks⟩, d)

theorem uniform_negationOf (k : Compound.Sketch P × Cursor P) :
    Uniform (fun ns => negationOf (fillCompound ns k)) Simple.Sketch.fill := by
  obtain ⟨⟨place, first, others⟩, d⟩ := k
  simp only [negationOf, fillCompound, Compound.Sketch.fill, List.isEmpty_map]
  cases d.skipSpace.expectEnd with
  | error e => exact .fail e
  | ok _ =>
    cases hothers : others.isEmpty with
    | false => exact .remark (.ok Simple.Sketch.fill (.whole .nothing)) _
    | true =>
      by_cases hfirst : first = .whole .nothing
      · simp only [Simple.Sketch.fill_eq_nothing.2 hfirst]
        exact .remark (.ok Simple.Sketch.fill (.whole .nothing)) _
      · have hsome (ns : Namespace) : first.fill ns ≠ .nothing := mt Simple.Sketch.fill_eq_nothing.1 hfirst
        simp only [hsome, ↓reduceIte]
        exact .ok Simple.Sketch.fill (.negation first)

/-- The parts from here on. -/
theorem uniform_simples (c : Cursor P) : Uniform (fun ns => c.simples ns) fillAll := by
  -- by how many nodes are ahead: an argument is smaller than what it stands in
  induction hsize : c.size using Nat.strongRecOn generalizing c with
  | _ size ih =>
  subst hsize
  rcases c.item?_bare_or_same with ⟨name, d, hitem⟩ | hsame
  · simp only [fun ns => simples_simple (hitem ns)]
    exact (ih _ (size_of_item? (hitem .any)).1 d rfl).map
      (g := fun (ks, e) => (Simple.Sketch.bare name :: ks, e)) fun _ _ => rfl
  · cases hitem : c.item? .any with
    | error e =>
      simp only [fun ns => simples_error ((hsame ns .any).trans hitem)]
      exact .fail e
    | ok found =>
      match found with
      | none =>
        simp only [fun ns => simples_none ((hsame ns .any).trans hitem)]
        exact .ok fillAll ([], c)
      | some (.simple s, d) =>
        simp only [fun ns => simples_simple ((hsame ns .any).trans hitem)]
        exact (ih _ (size_of_item? hitem).1 d rfl).map
          (g := fun (ks, e) => (Simple.Sketch.whole s :: ks, e)) fun _ _ => rfl
      | some (.unsupported why, d) =>
        simp only [fun ns => simples_unsupported ((hsame ns .any).trans hitem)]
        exact ((ih _ (size_of_item? hitem).1 d rfl).map (g := fun (ks, e) => (Simple.Sketch.whole .nothing :: ks, e))
          fun _ _ => rfl).remark why
      | some (.negation inside, d) =>
        simp only [fun ns => simples_negation ((hsame ns .any).trans hitem)]
        have hinside := ih _ ((size_of_item? hitem).2 inside rfl) inside rfl
        have hnegation := (hinside.bind fun ks _ => inside.uniform_compoundOf ks).bind fun k _ => uniform_negationOf k
        exact hnegation.bind fun k _ =>
          (ih _ (size_of_item? hitem).1 d rfl).map (g := fun (ks, e) => (k :: ks, e)) fun _ _ => rfl

theorem uniform_compound (c : Cursor P) : Uniform (fun ns => c.compound ns) fillCompound :=
  c.uniform_simples.bind fun ks _ => c.uniform_compoundOf ks

/-! ## Complex selectors -/

theorem uniform_complex (c : Cursor P) : Uniform (fun ns => c.complex ns) Complex.Sketch.fill := by
  induction hsize : c.size using Nat.strongRecOn generalizing c with
  | _ size ih =>
  subst hsize
  simp only [fun ns => complex_eq_bind ns c]
  refine c.uniform_compound.bind fun (k, d) hk => ?_
  have hd : d.size < c.size := size_compound (hk .any)
  simp only [fillCompound]
  cases hlink : d.combinator? with
  | error e => exact .fail e
  | ok found =>
    match found with
    | none => exact .ok Complex.Sketch.fill (.subject k)
    | some (link, e) =>
      dsimp only
      split
      · exact .fail _
      · have he : e.skipSpace.size < c.size :=
          calc e.skipSpace.size ≤ e.size := e.size_skipSpace_le
            _ ≤ d.size := size_combinator? hlink
            _ < c.size := hd
        exact (ih _ he e.skipSpace rfl).map (g := (.link k link ·)) fun _ _ => rfl

end Cursor

/-! ## Trees -/

theorem Selector.exists_sketch_conjunction (place : P) (k : Simple.Sketch) (ks : List Simple.Sketch) :
    ∃ t : Selector.Sketch P, ∀ (locate : P → Locator) (ns : Namespace),
      Selector.conjunction (some (locate place)) (k.fill ns) (ks.map (Simple.Sketch.fill ns)) = t.fill locate ns := by
  induction ks generalizing k with
  | nil => exact ⟨.simple k, fun _ _ => rfl⟩
  | cons k' ks ih =>
    obtain ⟨t, ht⟩ := ih k'
    exact ⟨.both k t place, fun locate ns => by rw [List.map_cons, conjunction, ht]; rfl⟩

theorem Complex.exists_sketch_tree (x : Complex.Sketch P) :
    ∃ t : Except (Unsupported P) (Selector.Sketch P), ∀ (locate : P → Locator) (ns : Namespace),
      (x.fill ns).tree locate = t.map (Selector.Sketch.fill locate ns) := by
  induction x with
  | subject k =>
    obtain ⟨t, ht⟩ := Selector.exists_sketch_conjunction k.place k.first k.others
    exact ⟨.ok t, fun locate ns => congrArg Except.ok (ht locate ns)⟩
  | link k link rest ih =>
    obtain ⟨t, ht⟩ := ih
    simp only [Sketch.fill, tree, ht, Compound.Sketch.fill, List.isEmpty_map]
    cases t with
    | error why => exact ⟨.error why, fun _ _ => rfl⟩
    | ok second =>
      cases k.others.isEmpty with
      | true => exact ⟨.ok (.related link k.first second k.place), fun _ _ => rfl⟩
      | false => exact ⟨.error (.compoundBefore link k.place), fun _ _ => rfl⟩

theorem Complex.uniform_selector (x : Complex.Sketch Position) :
    Uniform (fun o : Options => (x.fill o.defaultNamespace).selector o.locate) Selector.Sketch.under := by
  obtain ⟨t, ht⟩ := exists_sketch_tree x
  simp only [selector, ht]
  cases t with
  | error why => exact .remark (.ok Selector.Sketch.under (.simple (.whole .nothing))) why
  | ok k => exact .ok Selector.Sketch.under k

/-! ## Groups -/

namespace Cursor

theorem uniform_selector (c : Cursor Position) :
    Uniform (fun o : Options => c.selector o.locate o.defaultNamespace) Selector.Sketch.under :=
  (c.skipSpace.uniform_complex.comp Options.defaultNamespace).bind fun x _ => Complex.uniform_selector x

theorem uniform_selectors (cs : List (Cursor Position)) :
    Uniform (fun o : Options => selectors o.locate o.defaultNamespace cs)
      fun o => List.map (Selector.Sketch.under o) := by
  induction cs with
  | nil => exact ⟨.ok [], fun _ => rfl⟩
  | cons c cs ih => exact c.uniform_selector.bind fun k _ => ih.map (g := (k :: ·)) fun _ _ => rfl

theorem uniform_group (c : Cursor Position) :
    Uniform (fun o : Options => c.group o.locate o.defaultNamespace) Group.Sketch.under :=
  (uniform_selector _).bind fun k _ =>
    (uniform_selectors _).map (g := fun ks => ⟨k, ks, c.here⟩) fun _ _ => rfl

end Cursor

/-- Reading a text comes to the same under all options but for what these fill in: the remarks and the
failure, or the sketch of a group. The types left open in it are those that are written without a
prefix, since under all options each member is what the grammar makes of its stretch. -/
theorem Group.parse_eq_sketch (text : String) :
    ∃ r : Report Position (Group.Sketch Position),
      (∀ o, Group.parse text o = (r.map (·.under o)).toParsed o text.toList) ∧
        ∀ k, r.result = .ok k → ∀ o : Options,
          List.Forall₂ (fun c s => Grammar.Denotes o.defaultNamespace o.locate (Cursor.rest c) s)
            (Cursor.ofChars text.toList).stretches (k.under o).members := by
  obtain ⟨r, hr⟩ := (Cursor.ofChars text.toList).uniform_group
  have hparse (o : Options) : Group.parse text o = (r.map (·.under o)).toParsed o text.toList :=
    congrArg (Report.toParsed o text.toList) (hr o)
  refine ⟨r, hparse, fun k hk o => ?_⟩
  have hread : (Group.parse text o).result = .ok (k.under o) := by
    rw [hparse, Report.toParsed, Report.map, hk]
    rfl
  exact (parse_eq_ok_iff.1 hread).2

end StyleSelectors
